import EditorConfig.FileTree
/-!
# File systems

A file system is a file tree seen from a current directory. Paths are looked up one piece at a time,
as POSIX systems do: every piece, also an empty one or a dot, asks for a directory in front of it.
Looking something up therefore fails for some paths that fold to a location that exists.
-/
namespace EditorConfig

/-- Why a file system refuses a path. -/
inductive FsError where
  | notFound
  | notADirectory
  | isADirectory
  | nameTooLong
  | nulInPath
  /-- The bytes of a file are no text. -/
  | notText
  /-- A file that is to be made is there already. -/
  | alreadyExists (name : String)
deriving DecidableEq, Repr

/-- The wording of an error. -/
def FsError.message : FsError → String
  | notFound => "No such file or directory (os error 2)"
  | notADirectory => "Not a directory (os error 20)"
  | isADirectory => "Is a directory (os error 21)"
  | nameTooLong => "File name too long (os error 36)"
  | nulInPath => "file name contained an unexpected NUL byte"
  | notText => "stream did not contain valid UTF-8"
  | alreadyExists name => name ++ " already exists"

/-- A file tree and the directory that relative paths start from. -/
structure FileSystem where
  tree : FileTree
  cwd : Location

namespace FileSystem

/-- Longest name, in bytes. -/
def maxNameLength : Nat := 255

/-- Follows pieces of a path through the tree. -/
def walk (t : FileTree) (here : Location) : List (List Char) → Except FsError Location
  | [] => .ok here
  | piece :: rest =>
    match t.node? here with
    | none => .error .notFound
    | some (.file _) => .error .notADirectory
    | some (.dir entries) =>
      match Path.component? piece with
      | none | some .current | some .root => walk t here rest
      | some .parent => walk t here.tail rest
      | some (.name name) =>
        if maxNameLength < name.utf8ByteSize then .error .nameTooLong
        else match entries.find? name with
          | none => .error .notFound
          | some _ => walk t (name :: here) rest

/-- Where a path starts, and its pieces. -/
def start (fs : FileSystem) (p : Path) : Location × List (List Char) :=
  match p.text.toList with
  | '/' :: s => ([], s.splitOn '/')
  | s => (fs.cwd, s.splitOn '/')

/-- The location that a path leads to. -/
def find (fs : FileSystem) (p : Path) : Except FsError Location :=
  if p.text = "" then .error .notFound
  else if '\x00' ∈ p.text.toList then .error .nulInPath
  else walk fs.tree (fs.start p).1 (fs.start p).2

/-- The file or directory that a path leads to. -/
def node (fs : FileSystem) (p : Path) : Except FsError Node :=
  match fs.find p with
  | .error e => .error e
  | .ok l => match fs.tree.node? l with
    | some n => .ok n
    | none => .error .notFound

/-- Whether a path leads to a file. -/
def isFile (fs : FileSystem) (p : Path) : Bool :=
  match fs.node p with
  | .ok (.file _) => true
  | _ => false

/-- Whether a path leads to a directory. -/
def isDir (fs : FileSystem) (p : Path) : Bool :=
  match fs.node p with
  | .ok (.dir _) => true
  | _ => false

/-- Whether a path leads anywhere. -/
def present (fs : FileSystem) (p : Path) : Bool := (fs.node p).toOption.isSome

/-- The bytes of a file. -/
def read (fs : FileSystem) (p : Path) : Except FsError ByteArray :=
  match fs.node p with
  | .error e => .error e
  | .ok (.dir _) => .error .isADirectory
  | .ok (.file content) => .ok content

/-- The text of a file. -/
def readText (fs : FileSystem) (p : Path) : Except FsError String :=
  match fs.read p with
  | .error e => .error e
  | .ok content => match String.fromUTF8? content with
    | some text => .ok text
    | none => .error .notText

/-- Writes a file; its directory must be there. -/
def write (fs : FileSystem) (p : Path) (content : ByteArray) : Except FsError FileSystem :=
  if p.text = "" then .error .notFound
  else if '\x00' ∈ p.text.toList then .error .nulInPath
  else
    let (here, pieces) := fs.start p
    match walk fs.tree here pieces.dropLast with
    | .error e => .error e
    | .ok dir =>
      match fs.tree.node? dir with
      | none => .error .notFound
      | some (.file _) => .error .notADirectory
      | some (.dir _) =>
        match Path.component? (pieces.getLastD []) with
        | some (.name name) =>
          if maxNameLength < name.utf8ByteSize then .error .nameTooLong
          else match fs.tree.put? (name :: dir) (some content) with
            | some tree => .ok { fs with tree }
            | none => .error .isADirectory
        | _ => .error .isADirectory

/-- Why a path cannot be folded to a location. -/
inductive AbsoluteError where
  /-- The path is empty. -/
  | emptyPath
  /-- The path is relative and the current directory is gone. -/
  | noCurrentDirectory
deriving DecidableEq, Repr

/-- The wording of an error. -/
def AbsoluteError.message : AbsoluteError → String
  | emptyPath => "cannot make an empty path absolute"
  | noCurrentDirectory => FsError.notFound.message

/-- The location that a path folds to, whether or not anything is there. -/
def locate (fs : FileSystem) (p : Path) : Except AbsoluteError Location :=
  if p.text = "" then .error .emptyPath
  else if !p.isAbsolute && !fs.tree.isDir fs.cwd then .error .noCurrentDirectory
  else .ok (Location.fold fs.cwd p)

end FileSystem

end EditorConfig
