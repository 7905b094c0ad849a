import EditorConfig.Glob.Braces
import EditorConfig.Glob.Bracket
import EditorConfig.Glob.Engine
/-!
# Reading patterns

A pattern text is read from left to right. Ranges of numerals are the only part whose meaning can
be much larger than its text: the values they stand for are counted as they are met, and reading
stops when a limit is passed. The values of a range that is within the limit are written out, if the
engine has room for them. Braces that hold neither a range nor two alternatives are ordinary
characters. Each alternative is read like a pattern of its own.
-/
namespace EditorConfig.Glob

/-- Why a pattern text cannot be read. -/
inductive ReadError where
  /-- A bracket expression is not closed. -/
  | unclosedClass
  /-- The ranges of numerals stand for too many values. -/
  | tooManyAlternatives
  /-- The values of a range are not too many, but there is no room to write them out. -/
  | noRoom
deriving DecidableEq, Repr

namespace Reader

/-- The largest count of values that is kept. -/
def maxCount : Nat := 18446744073709551615

/-- Adds the values of a range to a count, which stays at `maxCount` when it gets there. -/
def addCount (count : Nat) (r : Numerals) : Nat :=
  min maxCount (count + min maxCount (min maxCount (r.low - r.high).natAbs + 1))

/-- Counts the values of a range and writes them out. -/
def writeOut [Engine] (limit count : Nat) (r : Numerals) : Except ReadError Nat :=
  if limit < addCount count r then .error .tooManyAlternatives
  else if Engine.lists r.ascending then .ok (addCount count r)
  else .error .noRoom

/-- Whether two stars at this place and a separator after them stand for whole directories: only
at the beginning and after a separator. -/
def afterSeparator : Option Char → Bool
  | none => true
  | some c => c == '/'

theorem length_of_dropStars {s r : List Char} (h : s.dropWhile (· == '*') = r) :
    r.length ≤ s.length :=
  h ▸ (s.dropWhile_suffix (· == '*')).length_le

variable [Engine]

mutual

/-- Reads a text whose preceding character is `prev`, `count` values having been counted. -/
def readFrom (limit : Nat) (prev : Option Char) (s : List Char) (count : Nat) :
    Except ReadError (Pattern × Nat) :=
  match s with
  | [] => .ok (.nil, count)
  | '\\' :: [] => .ok (.atom (.char '\\') .nil, count)
  | '\\' :: c :: s => (readFrom limit (some c) s count).map fun (e, n) => (.atom (.char c) e, n)
  | '?' :: s => (readFrom limit (some '?') s count).map fun (e, n) => (.atom .anyChar e, n)
  | '*' :: '*' :: s =>
    match _hr : s.dropWhile (· == '*') with
    | '/' :: r =>
      if afterSeparator prev then
        (readFrom limit (some '/') r count).map fun (e, n) => (.atom .directories e, n)
      else
        (readFrom limit (some '*') ('/' :: r) count).map fun (e, n) => (.atom .anything e, n)
    | r => (readFrom limit (some '*') r count).map fun (e, n) => (.atom .anything e, n)
  | '*' :: s => (readFrom limit (some '*') s count).map fun (e, n) => (.atom .segment e, n)
  | '[' :: s =>
    match _hb : Bracket.read s with
    | .unclosed => .error .unclosedClass
    | .plain => (readFrom limit (some '[') s count).map fun (e, n) => (.atom (.char '[') e, n)
    | .set set r =>
      (readFrom limit (some ']') r count).map fun (e, n) => (.atom (.oneOf set) e, n)
  | '{' :: s =>
    match _hc : Braces.close? 0 s with
    | none => (readFrom limit (some '{') s count).map fun (e, n) => (.atom (.char '{') e, n)
    | some (inner, r) =>
      match Numerals.parse? inner with
      | some range =>
        match writeOut limit count range with
        | .error e => .error e
        | .ok count =>
          (readFrom limit (some '}') r count).map fun (e, n) =>
            (.atom (.numeral range.ascending) e, n)
      | none =>
        match _hp : Braces.split 0 inner with
        | first :: second :: others =>
          match readAll limit first (second :: others) count with
          | .error e => .error e
          | .ok (body, count) =>
            (readFrom limit (some '}') r count).map fun (e, n) => (.group body e, n)
        | _ => (readFrom limit (some '{') s count).map fun (e, n) => (.atom (.char '{') e, n)
  | c :: s => (readFrom limit (some c) s count).map fun (e, n) => (.atom (.char c) e, n)
termination_by s.length
decreasing_by
  all_goals simp only [List.length_cons]
  all_goals first
    | omega
    | (have h := length_of_dropStars _hr; omega)
    | (have h := length_of_dropStars _hr; simp only [List.length_cons] at h; omega)
    | (have h := Bracket.length_of_read _hb; omega)
    | (have h := Braces.length_of_close? _hc; rw [← _hp, Braces.size_split]; omega)
    | (have h := Braces.length_of_close? _hc; omega)

/-- Reads alternatives one after another, each like a text of its own. -/
def readAll (limit : Nat) (first : List Char) (others : List (List Char)) (count : Nat) :
    Except ReadError (Pattern × Nat) :=
  match others with
  | [] => readFrom limit none first count
  | second :: others =>
    match readFrom limit none first count with
    | .error e => .error e
    | .ok (left, count) =>
      (readAll limit second others count).map fun (right, n) => (.either left right, n)
termination_by Braces.size (first :: others)
decreasing_by all_goals simp [Braces.size]; try omega

end

/-- Reads a pattern text whose ranges of numerals stand for at most `limit` values in all. -/
def read (limit : Nat) (s : List Char) : Except ReadError Pattern :=
  (readFrom limit none s 0).map Prod.fst

end Reader

end EditorConfig.Glob
