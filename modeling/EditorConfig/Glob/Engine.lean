import EditorConfig.Glob.Pattern
/-!
# What patterns ask of their engine

Patterns are compiled to programs that a regular-expression engine runs. Programs are held to a
size, and the values of a range are written out one by one before anything is compiled. How large a
program is and how many values can be written out is a matter of the engine and of the machine, so
an `Engine` is a parameter of all that follows. `Engine.reckoned` stands in for the engine where
patterns are compiled.
-/
namespace EditorConfig.Glob

/-- Bytes that the program for a pattern may take. -/
def maxSize : Nat := 1048576

/-- What is asked of the engine. As an inferred parameter it need not be named where patterns are
only passed on. -/
class Engine where
  /-- Whether the values of a range can be written out in one list. -/
  lists : Numerals → Bool
  /-- How many bytes the program for a pattern takes. -/
  size : Pattern → Nat
  /-- The program for nothing may always be kept. -/
  size_nil : size .nil ≤ maxSize

namespace Engine

/-- The largest number of texts in a list: no list takes more than `2 ^ 63 - 1` bytes, and a text
takes 24 of them beside its characters. -/
def maxListed : Nat := 384307168202282325

/-- About how many bytes the program for an atom takes: 32 for each of its states and 8 for each of
the transitions of a state. The values of a range share their states. -/
def ofAtom : Atom → Nat
  | .char c => 32 * c.utf8Size
  | .anyChar => 368
  | .segment | .anything => 448
  | .directories => 560
  | .oneOf set => 368 + 16 * set.ranges.length
  | .numeral range => 32 * range.longest + 11 * range.count

/-- About how many bytes the program for a pattern takes. -/
def ofPattern : Pattern → Nat
  | .nil => 0
  | .atom a rest => ofAtom a + ofPattern rest
  | .group body rest => 64 + ofPattern body + ofPattern rest
  | .either left right => 4 + ofPattern left + ofPattern right

/-- Sizes are reckoned from the pattern, and a list is limited by its length alone. -/
instance reckoned : Engine where
  lists range := range.count ≤ maxListed
  size := ofPattern
  size_nil := by decide

end Engine

end EditorConfig.Glob
