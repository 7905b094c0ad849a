import EditorConfig.ConfigFile
import EditorConfig.Glob
import EditorConfig.Rules
/-!
# Events

What is worth telling while configuration files are found and applied. An event is a cause; its
level, its message and its fields are what a log shows of it. After a fatal event the program tells
nothing more, nor does it show that event itself.
-/
namespace EditorConfig

/-- How urgent an event is. -/
inductive Level where
  | debug
  | warn
deriving DecidableEq, Repr

/-- The name of a level. -/
def Level.name : Level → String
  | debug => "DEBUG"
  | warn => "WARN"

/-- Something that happened on the way. -/
inductive Event where
  | skippedLine (path : Path) (skipped : SkippedLine)
  | loadedConfig (file : ConfigFile)
  | invalidPattern (config : Path) (error : Glob.CompileError)
  | unreadableConfig (error : LoadError)
  | sectionMatched (config : Path) (pattern target : String)
  | notAbsolute (path : Path) (error : FileSystem.AbsoluteError)
  | mappedRules (path : Path) (rules : Rules)
  | runComplete (resolved withRules : Nat)
deriving DecidableEq, Repr

namespace Event

/-- The lines that were skipped when a file was read. -/
def skippedLines (file : ConfigFile) : List Event :=
  file.document.skipped.map (skippedLine file.path)

/-- Whether the program ends with the event. -/
def isFatal : Event → Bool
  | invalidPattern _ error => error.isFatal
  | _ => false

/-- How urgent the event is. -/
def level : Event → Level
  | invalidPattern .. | unreadableConfig .. | notAbsolute .. => .warn
  | _ => .debug

/-- What the event is about, in words. -/
def message : Event → String
  | skippedLine .. => "skipped malformed line"
  | loadedConfig .. => "loaded config"
  | invalidPattern .. => "ignoring section with invalid pattern"
  | unreadableConfig .. => "ignoring unreadable config"
  | sectionMatched .. => "section matched"
  | notAbsolute .. => "cannot make path absolute"
  | mappedRules _ rules => "mapped rules\n" ++ rules.describe
  | runComplete .. => "run complete"

/-- The particulars of the event. -/
def fields : Event → List (String × String)
  | skippedLine path skipped =>
    [("path", path.text), ("line", toString skipped.line), ("reason", skipped.reason.name)]
  | loadedConfig file =>
    [("path", file.path.text), ("sections", toString file.sections.length),
      ("root", switchValue file.isRoot)]
  | invalidPattern config error => [("config", config.text), ("error", error.message)]
  | unreadableConfig error => [("error", error.message)]
  | sectionMatched config pattern target =>
    [("config", config.text), ("pattern", pattern), ("target", target)]
  | notAbsolute path error => [("path", path.text), ("error", error.message)]
  | mappedRules path _ => [("path", path.text)]
  | runComplete resolved withRules =>
    [("resolved", toString resolved), ("with_rules", toString withRules)]

end Event

end EditorConfig
