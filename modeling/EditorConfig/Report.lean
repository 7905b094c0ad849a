import EditorConfig.Colors
import EditorConfig.Resolver
import EditorConfig.Settings
import EditorConfig.Walk
/-!
# Reports

A run resolves every file of a walk with one resolver and prints a report for each. If something is
wrong with the walk, the first error is all that comes of it. A run in which a fatal event occurs is
broken off: what is printed before that is `printedBeforeEnd`, and nothing else comes of it.
-/
namespace EditorConfig

/-- How a run reports. -/
structure ReportStyle where
  /-- Whether only the paths of files with entries are printed. -/
  quiet : Bool
  colors : Colors
  /-- Whether the configuration files are named that a report comes from. -/
  verbose : Bool
deriving DecidableEq, Repr

/-- What was resolved for one file. -/
structure Report where
  path : Path
  entries : List (String × String)
  /-- The configuration files that apply, in the order of merging. -/
  sources : List Path
deriving DecidableEq, Repr

namespace Report

/-- The printed lines of a report, with a header line if there are several reports. -/
def lines (style : ReportStyle) (withHeader : Bool) (r : Report) : List String :=
  let c := style.colors
  if style.quiet then
    if r.entries.isEmpty then [] else [r.path.text]
  else
    (if withHeader then [c.header ++ "[" ++ r.path.text ++ "]" ++ c.reset] else []) ++
    (if style.verbose then
      r.sources.map fun source => c.muted ++ "# from " ++ source.text ++ c.reset
      else []) ++
    r.entries.map fun (key, value) => c.key ++ key ++ c.reset ++ "=" ++ value

/-- The printed text of a report. -/
def print (style : ReportStyle) (withHeader : Bool) (r : Report) : String :=
  String.join ((r.lines style withHeader).map (· ++ "\n"))

/-- What is reported of the properties that apply to a file, and what there is to tell. -/
def entriesOf (raw : Bool) (path : Path) (p : Properties) : List (String × String) × List Event :=
  if raw then (p.entries, [])
  else
    let rules := Rules.ofProperties p
    (rules.entries, [.mappedRules path rules])

variable [Glob.Engine]

/-- Makes the report for a file. The configuration files are asked for only if they are named. -/
def ofFile (settings : Settings) (style : ReportStyle) (fs : FileSystem) (r : Resolver)
    (path : Path) : Reply Report :=
  let found := r.resolve fs path
  let (entries, told) := entriesOf settings.raw path found.answer
  if style.verbose then
    let chain := found.resolver.configChain fs path
    ⟨⟨path, entries, chain.answer.map ConfigFile.path⟩, found.events ++ told ++ chain.events,
      chain.resolver⟩
  else ⟨⟨path, entries, []⟩, found.events ++ told, found.resolver⟩

/-- Makes the reports for files, one after another with one resolver. -/
def ofFiles (settings : Settings) (style : ReportStyle) (fs : FileSystem) (r : Resolver) :
    List Path → Reply (List Report)
  | [] => ⟨[], [], r⟩
  | path :: rest =>
    let here := ofFile settings style fs r path
    let others := ofFiles settings style fs here.resolver rest
    ⟨here.answer :: others.answer, here.events ++ others.events, others.resolver⟩

/-- The reports for the files in front of the first one with a fatal event. -/
def finished (settings : Settings) (style : ReportStyle) (fs : FileSystem) (r : Resolver) :
    List Path → List Report
  | [] => []
  | path :: rest =>
    let here := ofFile settings style fs r path
    if here.events.any Event.isFatal then []
    else here.answer :: finished settings style fs here.resolver rest

end Report

/-- What came of a run. -/
structure RunResult where
  resolved : Nat
  withRules : Nat
  printed : String
deriving DecidableEq, Repr

/-- The paths of a walk, unless there is an error in it. -/
def pathsOf : List (Except WalkError Path) → Except WalkError (List Path)
  | [] => .ok []
  | .error e :: _ => .error e
  | .ok p :: rest => (pathsOf rest).map (p :: ·)

/-- Reports the files that paths stand for. -/
def run [Glob.Engine] (fs : FileSystem) (settings : Settings) (style : ReportStyle)
    (paths : List Path) : Except WalkError RunResult × List Event :=
  match pathsOf (Walk.ofPaths fs paths) with
  | .error e => (.error e, [])
  | .ok files =>
    let reports := Report.ofFiles settings style fs (.new settings.resolver) files
    let resolved := reports.answer.length
    let withRules := (reports.answer.filter fun r => !r.entries.isEmpty).length
    let printed := String.join (reports.answer.map (Report.print style (1 < files.length)))
    (.ok ⟨resolved, withRules, printed⟩, reports.events ++ [.runComplete resolved withRules])

/-- What a run prints before the first fatal event. -/
def printedBeforeEnd [Glob.Engine] (fs : FileSystem) (settings : Settings) (style : ReportStyle)
    (paths : List Path) : String :=
  match pathsOf (Walk.ofPaths fs paths) with
  | .error _ => ""
  | .ok files =>
    let reports := Report.finished settings style fs (.new settings.resolver) files
    String.join (reports.map (Report.print style (1 < files.length)))

end EditorConfig
