import EditorConfig.Resolver
import EditorConfig.Toml.Reader
/-!
# Settings

What a settings file may say, and the settings of a run: what the command line asks for comes first,
then the settings file, then the defaults. A settings file holds two tables with known keys of known
types and nothing else.
-/
namespace EditorConfig

/-- What a settings file says. -/
structure SettingsFile where
  fileName : Option String
  maxAlternatives : Option Nat
  cache : Option Bool
  raw : Option Bool
deriving DecidableEq, Repr

/-- Why a settings file cannot be used. -/
inductive SettingsError where
  | unreadable (cause : FsError)
  /-- It is no TOML, or says something unknown. -/
  | malformed
deriving DecidableEq, Repr

/-- The wording of an error. Where and how a malformed file departs from TOML or from the known
settings follows behind a colon; it is left out here. -/
def SettingsError.message : SettingsError → String
  | unreadable cause => "failed to read config file: " ++ cause.message
  | malformed => "failed to parse config file"

namespace SettingsFile

open Toml

/-- Nothing is said. -/
def nothing : SettingsFile := ⟨none, none, none, none⟩

/-- The value of a text. -/
def text? : Item → Option String
  | .string s => some s
  | _ => none

/-- The value of a switch. -/
def switch? : Item → Option Bool
  | .boolean b => some b
  | _ => none

/-- The value of a count, which is not negative. -/
def count? : Item → Option Nat
  | .integer n => if 0 ≤ n then some n.toNat else none
  | _ => none

/-- A setting that may be missing and has a value of its type if not. -/
def optional? {α : Type} (read : Item → Option α) : Option Item → Option (Option α)
  | none => some none
  | some item => (read item).map some

/-- The items for some keys. A table holds them under these keys and holds no others; a list of
values has one for each key, in their order. -/
def items? (keys : List String) : Item → Option (List (Option Item))
  | .table _ entries =>
    if entries.all fun (key, _) => keys.contains key then
      some (keys.map fun key => entries.lookup key)
    else none
  | .array items =>
    if keys.length ≤ items.length then some (items.take keys.length |>.map some) else none
  | _ => none

/-- Takes over what the first table says. -/
def readResolve? (f : SettingsFile) (item : Item) : Option SettingsFile := do
  match ← items? ["file_name", "max_alternatives", "cache"] item with
  | [fileName, maxAlternatives, cache] =>
    return { f with
      fileName := ← optional? text? fileName
      maxAlternatives := ← optional? count? maxAlternatives
      cache := ← optional? switch? cache }
  | _ => none

/-- Takes over what the second table says. -/
def readOutput? (f : SettingsFile) (item : Item) : Option SettingsFile := do
  match ← items? ["raw"] item with
  | [raw] => return { f with raw := ← optional? switch? raw }
  | _ => none

/-- What a document says, if it says only known things. -/
def ofEntries? (entries : Entries) : Option SettingsFile :=
  entries.foldlM (fun f (key, item) =>
    match key with
    | "resolve" => f.readResolve? item
    | "output" => f.readOutput? item
    | _ => none) nothing

/-- Reads a settings file. -/
def load (fs : FileSystem) (path : Path) : Except SettingsError SettingsFile :=
  match fs.readText path with
  | .error cause => .error (.unreadable cause)
  | .ok text =>
    match (Toml.parse? text).bind ofEntries? with
    | some f => .ok f
    | none => .error .malformed

end SettingsFile

/-- What the command line asks for. -/
structure Requests where
  fileName : Option String
  raw : Option Bool
deriving DecidableEq, Repr

/-- The settings of a run. -/
structure Settings where
  resolver : ResolverOptions
  /-- Whether the resolved properties are reported in place of the typed rules. -/
  raw : Bool
deriving DecidableEq, Repr

namespace Settings

/-- Whether a run remembers what it finds in a directory, if nothing is said. -/
def defaultCache : Bool := true

/-- The settings that requests and a settings file make together. -/
def merge (requests : Requests) (file : SettingsFile) : Settings where
  resolver :=
    { fileName :=
        (requests.fileName.or file.fileName).getD ResolverOptions.default.fileName
      maxAlternatives := file.maxAlternatives.getD ResolverOptions.default.maxAlternatives
      cache := file.cache.getD defaultCache }
  raw := (requests.raw.or file.raw).getD false

end Settings

end EditorConfig
