import EditorConfig.Ignore.Rule
/-!
# Layers of ignore rules

Every directory has a layer of rules: those of its own ignore file, those of its repository ignore
file, and those of the repository it is the root of. A path is judged by the layers of the
directories that hold it, the nearest first, and for each kind of rules by the first layer that
decides. Rules of a repository count only inside one, and only up to its root.
-/
namespace EditorConfig.Ignore

/-- The rules of a directory. -/
structure Layer where
  dir : Path
  /-- From the file of the directory's own rules. -/
  own : List Rule
  /-- From the file of rules that is kept in the repository. -/
  shared : List Rule
  /-- From the rules of the repository that the directory is the root of. -/
  excluded : List Rule
  isRepository : Bool

namespace Layer

/-- The name of the file of a directory's own rules. -/
def ownName : String := ".ignore"

/-- The name of the file of rules that is kept in the repository. -/
def sharedName : String := ".gitignore"

/-- The name of what makes a directory the root of a repository. -/
def repositoryName : String := ".git"

/-- The path from a repository's data to its rules. -/
def excludedName : String := "info/exclude"

/-- Drops a text from the beginning of another. -/
def dropStart? (start s : List Char) : Option (List Char) :=
  if start.isPrefixOf s then some (s.drop start.length) else none

/-- Drops a leading dot and slash. -/
def dropDot (s : List Char) : List Char := (dropStart? "./".toList s).getD s

/-- Drops a leading slash. -/
def dropSlash : List Char → List Char
  | '/' :: s => s
  | s => s

/-- Whether a path is nothing but dots for the current directory. -/
def isDot (p : Path) : Bool := p.components == [.current]

/-- A path as the rules of a directory see it: without the directory in front of it. A path of one
name is left as it is. -/
def localize (dir : Path) (s : List Char) : List Char :=
  let s := dropDot s
  let root := dropDot dir.text.toList
  if isDot ⟨String.ofList root⟩ || !s.contains '/' then s
  else match dropStart? root s with
    | some s => dropSlash s
    | none => s

/-- What some rules of the layer decide about a path. -/
def decision (l : Layer) (rules : Layer → List Rule) (s : List Char) (isDir : Bool) :
    Option Verdict :=
  Rule.decision (rules l) (localize l.dir s) isDir

/-- The first line of a file, if there is one and it is text. -/
def firstLine? (content : ByteArray) : Option String :=
  if content.isEmpty then none else (byteLines content).head?.bind fun l =>
    String.fromUTF8? ⟨l.toArray⟩

/-- Where the data of a repository is kept. Mostly it is what marks the root; if that is a file, it
names a directory, which in turn names the place. -/
def repositoryData? (fs : FileSystem) (dir : Path) (entries : Listing) : Option Path := do
  match entries.find? repositoryName with
  | some (.file content) =>
    let line ← firstLine? content
    let place ← dropStart? "gitdir: ".toList line.toList
    let place : Path := ⟨String.ofList place⟩
    let shared ← (fs.read (place.join "commondir")).toOption
    let line ← firstLine? shared
    return if line.toList.head? == some '.' then place.join line else ⟨line⟩
  | _ => return dir.join repositoryName

/-- The rules in a file, if it is there. -/
def rulesAt (fs : FileSystem) (p : Path) : List Rule × List RuleError :=
  match fs.read p with
  | .ok content => readRules p content
  | .error _ => ([], [])

/-- The rules in a file of a directory. -/
def rulesIn (dir : Path) (entries : Listing) (name : String) : List Rule × List RuleError :=
  match entries.find? name with
  | some (.file content) => readRules (dir.join name) content
  | _ => ([], [])

/-- The layer of a directory, and what is wrong with its rules. -/
def ofDirectory (fs : FileSystem) (dir : Path) (entries : Listing) : Layer × List RuleError :=
  let own := rulesIn dir entries ownName
  let shared := rulesIn dir entries sharedName
  let excluded := match repositoryData? fs dir entries with
    | some place => rulesAt fs (place.join excludedName)
    | none => ([], [])
  (⟨dir, own.1, shared.1, excluded.1, (entries.find? repositoryName).isSome⟩,
    own.2 ++ shared.2 ++ excluded.2)

/-- The layers up to the root of the repository. -/
def upToRepository {α : Type} : List (Layer × α) → List (Layer × α)
  | [] => []
  | (l, a) :: outer => if l.isRepository then [(l, a)] else (l, a) :: upToRepository outer

/-- What layers decide about a path, each with the path as it is called there: own rules come before
those of the repository, and these before the excluded ones. -/
def judge (layers : List (Layer × List Char)) (isDir : Bool) : Option Verdict :=
  let inside := if layers.any fun (l, _) => l.isRepository then upToRepository layers else []
  let first (rules : Layer → List Rule) (layers : List (Layer × List Char)) : Option Verdict :=
    layers.findSome? fun (l, s) => l.decision rules s isDir
  (first own layers).or ((first shared inside).or (first excluded inside))

end Layer

end EditorConfig.Ignore
