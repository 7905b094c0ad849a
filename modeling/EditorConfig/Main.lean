import EditorConfig.CommandLine
/-!
# The program

Takes a picture of the part of the file system that a command line speaks about, lets
`CommandLine.execute` work on it, and carries out what comes of that. Large files are taken to be
empty: only the text of configuration files matters.
-/
namespace EditorConfig.Program

/-- Files with more bytes than this are not read. -/
def maxFileSize : UInt64 := 1048576

/-- Puts a file or a directory into a picture. What cannot be read is left out. -/
def takeFile (t : FileTree) (l : Location) : IO FileTree := do
  let some content ← (some <$> IO.FS.readBinFile l.path.text) <|> pure none | return t
  return (t.put? l (some content)).getD t

/-- Puts a directory into a picture, with its files, and with all below it if `deep`. -/
partial def takeDirectory (deep : Bool) (t : FileTree) (l : Location) : IO FileTree := do
  let place := (← IO.currentDir) / l.path.text
  let some entries ← (some <$> place.readDir) <|> pure none | return t
  let mut t := if l.isEmpty then t else (t.put? l none).getD t
  for e in entries do
    let some info ← (some <$> e.path.metadata) <|> pure none | continue
    let here : Location := e.fileName :: l
    match info.type with
    | .dir => t ← if deep then takeDirectory true t here else pure ((t.put? here none).getD t)
    | .file =>
      if maxFileSize < info.byteSize then t := (t.put? here (some .empty)).getD t
      else t ← takeFile t here
    | _ => pure ()
  return t

/-- Puts a directory, its files and the rules of its repository into a picture. -/
def takeAround (t : FileTree) (l : Location) : IO FileTree := do
  let t ← takeDirectory false t l
  takeFile t ("exclude" :: "info" :: ".git" :: l)

/-- Puts what a path leads to into a picture, and the directories around it. -/
def takePath (cwd : Location) (t : FileTree) (p : Path) : IO FileTree := do
  let l := Location.fold cwd p
  let t ← l.ancestors.foldlM takeAround t
  let t ← takeFile t l
  takeDirectory true t l

/-- Puts the configuration files with a given name into a picture. -/
def takeConfigFiles (cwd : Location) (name : String) (t : FileTree) (p : Path) : IO FileTree :=
  (Location.fold cwd p :: (Location.fold cwd p).ancestors).foldlM
    (fun t dir => takeFile t (Location.fold dir ⟨name⟩)) t

/-- The part of the file system that a command line speaks about. -/
def takePicture (cwd : Location) (c : CommandLine) : IO FileSystem := do
  let t ← (cwd :: cwd.ancestors).foldlM takeAround .empty
  let t ← (c.paths ++ c.config.toList).foldlM (takePath cwd) t
  let settings := Settings.merge ⟨c.fileName, none⟩ (c.loadSettings ⟨t, cwd⟩).1
  let t ← c.paths.foldlM (takeConfigFiles cwd settings.resolver.fileName) t
  return ⟨t, cwd⟩

/-- One line of the log. -/
def logLine (e : Event) : String :=
  let fields := e.fields.map fun (name, text) => " " ++ name ++ "=" ++ text
  e.level.name ++ " " ++ e.message ++ String.join fields

/-- Runs the program. -/
def run (args : List String) : IO UInt32 := do
  let cwd := Location.fold [] ⟨(← IO.currentDir).toString⟩
  let asked := CommandLine.read args
  let fs ← match asked with
    | .ok c => takePicture cwd c
    | .error _ => pure ⟨.empty, cwd⟩
  let output ← IO.getStdout
  let o := CommandLine.execute ⟨fs, ← IO.getEnv "NO_COLOR", ← output.isTty⟩ args
  if let .ok c := asked then
    if c.init && o.code == 0 then
      IO.FS.writeFile (Settings.pathIn none).text Settings.template
    for e in o.events do
      if c.verbose || e.level == .warn then IO.eprintln (logLine e)
  for complaint in o.complaints do
    IO.eprintln complaint
  output.putStr o.output
  output.flush
  return o.code.toUInt32

end EditorConfig.Program

/-- The program's entry. -/
def main (args : List String) : IO UInt32 := EditorConfig.Program.run args
