import EditorConfig.Glob.Marks
import EditorConfig.Glob.Numerals
/-!
# Patterns

A pattern is a sequence of atoms and groups, a group a choice between patterns. `Pattern.advance`
carries the marks of a text over a pattern, so that `Pattern.accepts` takes time proportional to
the pattern's size times the text's length.
-/
namespace EditorConfig.Glob

/-- Characters listed one by one and in ranges, or all characters but these. -/
structure CharSet where
  negated : Bool
  ranges : List (Char × Char)
deriving DecidableEq, Repr

namespace CharSet

/-- Whether the set holds `c`. -/
def contains (s : CharSet) (c : Char) : Bool :=
  s.negated != s.ranges.any fun (low, high) => low ≤ c && c ≤ high

/-- Whether every range goes upwards. -/
def wellOrdered (s : CharSet) : Bool := s.ranges.all fun (low, high) => low ≤ high

end CharSet

/-- What a pattern matches in one piece. -/
inductive Atom where
  /-- Exactly this character. -/
  | char (c : Char)
  /-- One character other than the separator. -/
  | anyChar
  /-- Any text without a separator. -/
  | segment
  /-- Any text. -/
  | anything
  /-- Nothing, or any text that ends in a separator. -/
  | directories
  /-- One character of the set. -/
  | oneOf (set : CharSet)
  /-- A number of the range. -/
  | numeral (range : Numerals)
deriving DecidableEq, Repr

/-- Sequences of atoms and groups, and choices between them. -/
inductive Pattern where
  | nil
  | atom (a : Atom) (rest : Pattern)
  | group (body rest : Pattern)
  | either (left right : Pattern)
deriving DecidableEq, Repr

/-- Whether `c` may stand inside a path segment. -/
def inSegment (c : Char) : Bool := c != '/'

namespace Atom

/-- Carries every mark over the atom. -/
def advance : Atom → Marks → Marks
  | char c => Marks.step (· == c)
  | anyChar => Marks.step inSegment
  | segment => Marks.spread inSegment
  | anything => Marks.spread fun _ => true
  | directories => Marks.descend
  | oneOf set => Marks.step set.contains
  | numeral range => Marks.words range.viable range.spells

/-- Whether every range of a set goes upwards. -/
def wellOrdered : Atom → Bool
  | oneOf set => set.wellOrdered
  | _ => true

/-- Nesting levels that the atom takes up. -/
def depth : Atom → Nat
  | char _ => 0
  | anyChar => 1
  | segment => 2
  | anything => 1
  | directories => 4
  | oneOf set => if set.ranges.length < 2 then 1 else 2
  | numeral range =>
    1 + (if range.count < 2 then 0 else 1) + (if range.longest < 2 then 0 else 1)

end Atom

namespace Pattern

/-- Carries every mark over the pattern. -/
def advance : Pattern → Marks → Marks
  | nil, m => m
  | atom a rest, m => rest.advance (a.advance m)
  | group body rest, m => rest.advance (body.advance m)
  | either left right, m => (left.advance m).union (right.advance m)

/-- Whether the pattern matches the whole of `s`. -/
def accepts (e : Pattern) (s : List Char) : Bool := (e.advance (Marks.atStart s)).endMarked

/-- Whether every range of every set goes upwards. -/
def wellOrdered : Pattern → Bool
  | nil => true
  | atom a rest => a.wellOrdered && rest.wellOrdered
  | group body rest => body.wellOrdered && rest.wellOrdered
  | either left right => left.wellOrdered && right.wellOrdered

/-- The number of members of a sequence and the depth of its deepest member; a choice counts as
one member. -/
def extent : Pattern → Nat × Nat
  | nil => (0, 0)
  | atom a rest => (rest.extent.1 + 1, max a.depth rest.extent.2)
  | group body rest => (rest.extent.1 + 1, max (2 + levels body.extent) rest.extent.2)
  | either left right => (1, max (levels left.extent) (levels right.extent))
where
  /-- A sequence of two or more members is a level of its own. -/
  levels : Nat × Nat → Nat
    | (n, deepest) => if n < 2 then deepest else deepest + 1

/-- How deeply the pattern is nested. -/
def depth (e : Pattern) : Nat := extent.levels e.extent

end Pattern

end EditorConfig.Glob
