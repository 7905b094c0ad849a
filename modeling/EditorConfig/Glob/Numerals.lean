/-!
# Ranges of numerals

The braces `{3..12}` stand for the integers from 3 to 12, each written in decimal. Two bounds
with equally many digits fix the width of every number, and shorter ones are padded with zeros.
A number has one spelling, so a text is in the range when it spells an integer between the bounds.
-/
namespace EditorConfig.Glob

/-- The integers from `low` to `high`, in either direction, and their common number of digits,
if they have one. -/
structure Numerals where
  low : Int
  high : Int
  width : Option Nat
deriving DecidableEq, Repr

namespace Numerals

/-- A bound as written: an optional sign and at least one decimal digit. Gives the value and the
number of digits. -/
def bound? (s : List Char) : Option (Int × Nat) :=
  let (negative, digits) := match s with
    | '-' :: ds => (true, ds)
    | '+' :: ds => (false, ds)
    | ds => (false, ds)
  if digits.isEmpty || !digits.all Char.isDigit then none
  else
    let n : Int := Nat.ofDigitChars 10 digits 0
    some (if negative then -n else n, digits.length)

/-- Bounds are 64-bit integers. -/
def InRange (n : Int) : Prop := -9223372036854775808 ≤ n ∧ n < 9223372036854775808

instance (n : Int) : Decidable (InRange n) := inferInstanceAs (Decidable (_ ∧ _))

/-- The text in front of the first `..` and the text behind it. -/
def splitDots : List Char → Option (List Char × List Char)
  | [] => none
  | c :: s =>
    match c, s with
    | '.', '.' :: rest => some ([], rest)
    | _, _ => (splitDots s).map fun (before, after) => (c :: before, after)

/-- The range that the text between two braces writes, if it does. -/
def parse? (inner : List Char) : Option Numerals :=
  match splitDots inner with
  | none => none
  | some (left, right) =>
    match bound? left, bound? right with
    | some (low, m), some (high, n) =>
      if InRange low ∧ InRange high then some ⟨low, high, if m = n then some m else none⟩
      else none
    | _, _ => none

/-- How many integers the range holds. -/
def count (r : Numerals) : Nat := (r.low - r.high).natAbs + 1

/-- The least integer of the range. -/
def least (r : Numerals) : Int := min r.low r.high

/-- The greatest integer of the range. -/
def greatest (r : Numerals) : Int := max r.low r.high

/-- The same integers, from the least on. -/
def ascending (r : Numerals) : Numerals := ⟨r.least, r.greatest, r.width⟩

/-- The one way in which the range writes the integer `k`. -/
def spell (r : Numerals) (k : Int) : List Char :=
  let digits := Nat.toDigits 10 k.natAbs
  let padded := match r.width with
    | some w => digits.leftpad w '0'
    | none => digits
  if k < 0 then '-' :: padded else padded

/-- Characters in the longest spelling of the range. -/
def longest (r : Numerals) : Nat := max (r.spell r.least).length (r.spell r.greatest).length

/-- Whether the range spells `s`. -/
def spells (r : Numerals) (s : List Char) : Bool :=
  match bound? s with
  | some (k, _) => decide (r.least ≤ k ∧ k ≤ r.greatest ∧ s = r.spell k)
  | none => false

/-- Whether `s` can be the beginning of a spelling: an optional minus sign and digits, no longer
than the longest spelling. -/
def viable (r : Numerals) (s : List Char) : Bool :=
  s.length ≤ r.longest && match s with
    | '-' :: ds => ds.all Char.isDigit
    | ds => ds.all Char.isDigit

end Numerals

end EditorConfig.Glob
