import EditorConfig.FileSystem
/-!
# Finding the settings file

The settings file is looked for in a directory and in the directories above it, as far as they are
written in the path. The search ends at the root of a repository, that is, at a directory that holds
something named `.git`; a file beside it is still found.
-/
namespace EditorConfig

namespace Path

/-- The path and what is left of it when components are dropped from its end, one at a time. -/
def outwards : Nat → Path → List Path
  | 0, _ => []
  | steps + 1, p => p :: (p.parent?.map (outwards steps)).getD []

/-- All directories that a path is written below, beginning with itself. Each step drops at least
one character. -/
def climb (p : Path) : List Path := outwards (p.text.length + 1) p

end Path

namespace Settings

/-- The name of the settings file. -/
def fileName : String := "edconf.toml"

/-- The name of what marks the root of a repository. -/
def repositoryMark : String := ".git"

/-- The first of some directories that holds a file of this name; the search ends behind the first
that is marked, if marks count. -/
def findIn (fs : FileSystem) (name : String) (marks : Bool) : List Path → Option Path
  | [] => none
  | dir :: outer =>
    if fs.isFile (dir.join name) then some (dir.join name)
    else if marks && fs.present (dir.join repositoryMark) then none
    else findIn fs name marks outer

/-- Looks for a file in a directory and outwards. -/
def findUpward (fs : FileSystem) (start : Path) (name : String) (marks : Bool) : Option Path :=
  findIn fs name marks start.climb

/-- Looks for the settings file in a directory and outwards. -/
def find (fs : FileSystem) (start : Path) : Option Path := findUpward fs start fileName true

end Settings

end EditorConfig
