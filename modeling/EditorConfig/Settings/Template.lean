import EditorConfig.Settings.Discovery
/-!
# Making a settings file

A fresh settings file holds the template: every setting with its meaning and its default, commented
out. It is made only where nothing is.
-/
namespace EditorConfig.Settings

/-- The lines of the template. -/
def templateLines : List String := [
    "# edconf.toml - Configuration for the edconf resolver",
    "#",
    "# edconf reports the .editorconfig rules that apply to each file:",
    "# it walks from the file's directory up to the filesystem root (or the first",
    "# file declaring `root = true`) and merges every matching section, closest",
    "# file last. The settings below tune that walk - uncomment as needed.",
    "",
    "[resolve]",
    "# Config file name looked up in each directory.",
    "# Default: \".editorconfig\"",
    "# file_name = \".editorconfig\"",
    "",
    "# Upper bound on the values a brace range such as \x7b1..100\x7d may expand to.",
    "# Sections whose pattern exceeds it are ignored.",
    "# Default: 1024",
    "# max_alternatives = 1024",
    "",
    "# Parse each config file only once per run.",
    "# Default: true",
    "# cache = true",
    "",
    "[output]",
    "# Print the raw resolved key=value pairs, including unknown properties,",
    "# instead of the typed rule set.",
    "# Default: false",
    "# raw = false"]

/-- The text of a fresh settings file. -/
def template : String := String.join (templateLines.map (· ++ "\n"))

/-- The path of the settings file of a directory, or of the current one. -/
def pathIn : Option Path → Path
  | some dir => dir.join fileName
  | none => ⟨fileName⟩

/-- Makes a settings file with the text of the template. -/
def create (fs : FileSystem) (dir : Option Path) : Except FsError (Path × FileSystem) :=
  if fs.present (pathIn dir) then .error (.alreadyExists fileName)
  else (fs.write (pathIn dir) template.toUTF8).map fun fs => (pathIn dir, fs)

end EditorConfig.Settings
