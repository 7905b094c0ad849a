/-!
# Colors

The escape sequences that a report is colored with, and when colors are used at all.
-/
namespace EditorConfig

/-- The sequences that begin a colored part, and the one that ends it. -/
structure Colors where
  header : String
  key : String
  muted : String
  reset : String
deriving DecidableEq, Repr

namespace Colors

/-- Bold cyan headers, green keys and dim remarks. -/
def on : Colors := ⟨"\x1b[1;36m", "\x1b[32m", "\x1b[2m", "\x1b[0m"⟩

/-- No colors. -/
def off : Colors := ⟨"", "", "", ""⟩

/-- Colors or none. -/
def ofBool (enabled : Bool) : Colors := if enabled then on else off

/-- Whether colors are used: the wish for none comes first, then the wish for colors, then the
environment's wish for none, and at last whether the output is a terminal. -/
def wanted (color noColor : Bool) (environment : Option String) (isTerminal : Bool) : Bool :=
  if noColor then false
  else if color then true
  else if environment.isSome then false
  else isTerminal

end Colors

end EditorConfig
