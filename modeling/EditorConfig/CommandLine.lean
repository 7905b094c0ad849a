import EditorConfig.Report
import EditorConfig.Settings.Template
/-!
# The command line

Arguments are read from left to right, and the first thing that settles the outcome counts: an
error, the wish for help, or the wish for the version. `CommandLine.execute` is the program as a
function of its surroundings; it prints nothing itself and changes the file system only by making a
settings file.
-/
namespace EditorConfig

/-- What the arguments ask for. -/
structure CommandLine where
  paths : List Path
  raw : Bool
  quiet : Bool
  fileName : Option String
  init : Bool
  config : Option Path
  verbose : Bool
  color : Bool
  noColor : Bool
deriving DecidableEq, Repr

namespace CommandLine

/-- Nothing is asked for. -/
def nothing : CommandLine := ⟨[], false, false, none, false, none, false, false, false⟩

/-- Why no command line comes of the arguments. -/
inductive Refusal where
  | help
  | version
  /-- The arguments are wrong. -/
  | usage
deriving DecidableEq, Repr

/-- An option by what it does. -/
inductive Setting where
  /-- It asks for something by being there. -/
  | switch (isSet : CommandLine → Bool) (set : CommandLine → CommandLine)
  /-- It takes a value. -/
  | value (isSet : CommandLine → Bool) (set : String → CommandLine → Except Refusal CommandLine)
  /-- It ends the reading. -/
  | stop (refusal : Refusal)

/-- A path must not be empty. -/
def pathOf (s : String) : Except Refusal Path := if s = "" then .error .usage else .ok ⟨s⟩

/-- The option for printing the resolved properties as they are. -/
def rawSetting : Setting := .switch raw fun c => { c with raw := true }

/-- The option for printing paths only. -/
def quietSetting : Setting := .switch quiet fun c => { c with quiet := true }

/-- The option for the name of configuration files. -/
def fileNameSetting : Setting :=
  .value (fun c => c.fileName.isSome) fun s c => .ok { c with fileName := some s }

/-- The option for naming sources. -/
def verboseSetting : Setting := .switch verbose fun c => { c with verbose := true }

/-- The option with a long name. -/
def longSetting? : String → Option Setting
  | "raw" => some rawSetting
  | "quiet" => some quietSetting
  | "file-name" => some fileNameSetting
  | "init" => some (.switch init fun c => { c with init := true })
  | "config" => some (.value (fun c => c.config.isSome) fun s c =>
      (pathOf s).map fun p => { c with config := some p })
  | "verbose" => some verboseSetting
  | "color" => some (.switch color fun c => { c with color := true })
  | "no-color" => some (.switch noColor fun c => { c with noColor := true })
  | "help" => some (.stop .help)
  | "version" => some (.stop .version)
  | _ => none

/-- The option with a short name. -/
def shortSetting? : Char → Option Setting
  | 'r' => some rawSetting
  | 'q' => some quietSetting
  | 'f' => some fileNameSetting
  | 'v' => some verboseSetting
  | 'h' => some (.stop .help)
  | 'V' => some (.stop .version)
  | _ => none

/-- Adds a path. -/
def addPath (c : CommandLine) (s : String) : Except Refusal CommandLine :=
  (pathOf s).map fun p => { c with paths := c.paths ++ [p] }

/-- Adds paths. -/
def addPaths (c : CommandLine) (args : List String) : Except Refusal CommandLine :=
  args.foldlM addPath c

/-- Sets a switch, which may be set once. -/
def setSwitch (c : CommandLine) (isSet : CommandLine → Bool) (set : CommandLine → CommandLine) :
    Except Refusal CommandLine :=
  if isSet c then .error .usage else .ok (set c)

/-- Whether an argument may be the value of the option in front of it. -/
def isValue (arg : String) : Bool := arg == "-" || arg.toList.head? != some '-'

/-- Reads short options written together. The last may leave its value to the next argument; then it
is given back. -/
def readShort (c : CommandLine) : List Char → Except Refusal (CommandLine × Option Setting)
  | [] => .ok (c, none)
  | name :: rest =>
    match shortSetting? name with
    | none => .error .usage
    | some (.stop refusal) => .error refusal
    | some (.switch isSet set) =>
      match c.setSwitch isSet set with
      | .error e => .error e
      | .ok c => readShort c rest
    | some (.value isSet set) =>
      match rest with
      | [] => .ok (c, some (.value isSet set))
      | _ =>
        if isSet c then .error .usage
        else
          let value := match rest with
            | '=' :: value => value
            | value => value
          (set (String.ofList value) c).map fun c => (c, none)

/-- Reads a long option without its dashes; like `readShort`. -/
def readLong (c : CommandLine) (arg : List Char) : Except Refusal (CommandLine × Option Setting) :=
  let (name, attached) := match Text.cut? '=' arg with
    | some (name, value) => (name, some (String.ofList value))
    | none => (arg, none)
  match longSetting? (String.ofList name), attached with
  | none, _ => .error .usage
  | some (.stop refusal), none => .error refusal
  | some (.switch isSet set), none => (c.setSwitch isSet set).map fun c => (c, none)
  | some (.stop _), some _ | some (.switch _ _), some _ => .error .usage
  | some (.value isSet set), none => .ok (c, some (.value isSet set))
  | some (.value isSet set), some value =>
    if isSet c then .error .usage else (set value c).map fun c => (c, none)

/-- Reads arguments; `waiting` is an option that the next argument is the value of. -/
def readFrom (c : CommandLine) (waiting : Option Setting) :
    List String → Except Refusal CommandLine
  | [] => if waiting.isSome then .error .usage else .ok c
  | arg :: rest =>
    match waiting with
    | some (.value isSet set) =>
      if isValue arg && !isSet c then
        match set arg c with
        | .error e => .error e
        | .ok c => readFrom c none rest
      else .error .usage
    | some _ => .error .usage
    | none =>
      let found : Except Refusal (CommandLine × Option Setting) := match arg.toList with
        | '-' :: '-' :: name => readLong c name
        | '-' :: name :: names => readShort c (name :: names)
        | _ => (c.addPath arg).map fun c => (c, none)
      if arg = "--" then c.addPaths rest
      else match found with
        | .error e => .error e
        | .ok (c, waiting) => readFrom c waiting rest

/-- Reads all arguments. Without paths there is nothing to do but to make a settings file. -/
def read (args : List String) : Except Refusal CommandLine :=
  match readFrom nothing none args with
  | .error e => .error e
  | .ok c => if c.paths.isEmpty && !c.init then .error .usage else .ok c

/-- What is printed for the version. -/
def versionText : String := "edconf 0.1.0\n"

/-- What is said about wrong arguments. -/
def usageText : String := "error: wrong arguments; for more information, try '--help'."

/-- What is printed for help. -/
def helpText : String := String.join (List.map (· ++ "\n") [
  "Show the .editorconfig rules that apply to files",
  "",
  "Usage: edconf [OPTIONS] [PATHS]...",
  "",
  "Arguments:",
  "  [PATHS]...  Target files or directories",
  "",
  "Options:",
  "  -r, --raw               Print raw resolved properties, including unknown ones",
  "  -q, --quiet             Output only the names of files that have rules",
  "  -f, --file-name <NAME>  Config file name to look for in each directory",
  "      --init              Generate a template edconf.toml configuration file",
  "      --config <PATH>     Specify config file path (overrides auto-discovery)",
  "  -v, --verbose           Show which config files each result came from, and debug logs",
  "      --color             Force colored output",
  "      --no-color          Disable colored output",
  "  -h, --help              Print help",
  "  -V, --version           Print version"])

/-- What the program finds around it. -/
structure Surroundings where
  fs : FileSystem
  /-- The environment's wish for no colors. -/
  noColor : Option String
  isTerminal : Bool

/-- What the program does. -/
structure Outcome where
  code : UInt8
  output : String
  /-- What is said about errors, message by message. -/
  complaints : List String
  events : List Event
  fs : FileSystem

/-- Makes a settings file in the current directory. -/
def makeSettings (fs : FileSystem) : Outcome :=
  match Settings.create fs none with
  | .ok (made, fs) => ⟨0, "Created " ++ made.text ++ "\n", [], [], fs⟩
  | .error e => ⟨1, "", ["Error: " ++ e.message], [], fs⟩

/-- The settings file to use: the one asked for, or the one found from the current directory. -/
def settingsPath? (c : CommandLine) (fs : FileSystem) : Option Path :=
  c.config.or (if fs.tree.isDir fs.cwd then Settings.find fs fs.cwd.path else none)

/-- Loads the settings file. One that cannot be used is complained about and passed over. -/
def loadSettings (c : CommandLine) (fs : FileSystem) : SettingsFile × List String :=
  match c.settingsPath? fs with
  | none => (.nothing, [])
  | some path =>
    match SettingsFile.load fs path with
    | .ok file => (file, [])
    | .error e => (.nothing, ["Warning: Failed to load " ++ path.text ++ ": " ++ e.message])

/-- The settings of a command line with a settings file. -/
def settings (c : CommandLine) (file : SettingsFile) : Settings :=
  .merge ⟨c.fileName, if c.raw then some true else none⟩ file

/-- How a command line asks for reports. -/
def style (c : CommandLine) (s : Surroundings) : ReportStyle :=
  ⟨c.quiet, .ofBool (Colors.wanted c.color c.noColor s.noColor s.isTerminal), c.verbose⟩

variable [Glob.Engine]

/-- Reports what the command line asks for. With a fatal event the program ends on the spot. -/
def report (c : CommandLine) (s : Surroundings) : Outcome :=
  let (file, warnings) := c.loadSettings s.fs
  match run s.fs (c.settings file) (c.style s) c.paths with
  | (.ok result, events) =>
    if events.any Event.isFatal then
      ⟨101, printedBeforeEnd s.fs (c.settings file) (c.style s) c.paths, warnings,
        events.takeWhile (!·.isFatal), s.fs⟩
    else ⟨0, result.printed, warnings, events, s.fs⟩
  | (.error e, events) => ⟨1, "", warnings ++ ["Error: " ++ e.message], events, s.fs⟩

/-- Does what the arguments ask for. -/
def execute (s : Surroundings) (args : List String) : Outcome :=
  match read args with
  | .error .help => ⟨0, helpText, [], [], s.fs⟩
  | .error .version => ⟨0, versionText, [], [], s.fs⟩
  | .error .usage => ⟨2, "", [usageText], [], s.fs⟩
  | .ok c => if c.init then makeSettings s.fs else c.report s

end CommandLine

end EditorConfig
