import EditorConfig.Document
import EditorConfig.FileSystem
/-!
# Configuration files

A configuration file is a document together with the path it was read from. Its sections speak
about the files below the directory of that path.
-/
namespace EditorConfig

/-- A document and where it was read. -/
structure ConfigFile where
  path : Path
  document : Document
deriving DecidableEq, Repr

/-- Why a configuration file cannot be loaded. -/
inductive LoadError where
  | unreadable (path : Path) (cause : FsError)
  /-- The bytes are not UTF-8. -/
  | encoding (path : Path)
  | binary (path : Path) (cause : Document.BinaryContent)
deriving DecidableEq, Repr

/-- The wording of an error. -/
def LoadError.message : LoadError → String
  | unreadable path cause => "failed to read " ++ path.text ++ ": " ++ cause.message
  | encoding path => path.text ++ " is not valid UTF-8"
  | binary path cause => "failed to parse " ++ path.text ++ ": " ++ cause.message

namespace ConfigFile

/-- The directory whose files the sections speak about. -/
def directory (f : ConfigFile) : Path := f.path.directory

/-- Whether files further out are to be left alone. -/
def isRoot (f : ConfigFile) : Bool := f.document.isRoot

/-- The sections, in the order of the file. -/
def sections (f : ConfigFile) : List Section := f.document.sections

/-- Reads a configuration file. -/
def load (fs : FileSystem) (path : Path) : Except LoadError ConfigFile :=
  match fs.read path with
  | .error cause => .error (.unreadable path cause)
  | .ok content =>
    match String.fromUTF8? content with
    | none => .error (.encoding path)
    | some text =>
      match Document.parse text with
      | .error cause => .error (.binary path cause)
      | .ok document => .ok ⟨path, document⟩

end ConfigFile

end EditorConfig
