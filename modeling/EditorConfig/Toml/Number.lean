import EditorConfig.Toml.Item
import EditorConfig.Toml.Trivia
/-!
# TOML numbers and dates

Integers in four bases, floating-point numbers, and dates and times. Underscores may stand between
digits, decimal numbers have no leading zeros, an integer has 64 bits, and a floating-point number
must not be too large.
-/
namespace EditorConfig.Toml

/-- A run of digits in which single underscores stand between digits, without the underscores. -/
def digitsFrom (isDigit : Char → Bool) : List Char → Option (List Char × List Char)
  | [] => some ([], [])
  | '_' :: c :: s =>
    if isDigit c then (digitsFrom isDigit s).map fun (ds, rest) => (c :: ds, rest) else none
  | c :: s =>
    if isDigit c then (digitsFrom isDigit s).map fun (ds, rest) => (c :: ds, rest)
    else if c = '_' then none
    else some ([], c :: s)

/-- A run of at least one digit. -/
def digits? (isDigit : Char → Bool) : Scan (List Char)
  | [] => none
  | c :: s =>
    if isDigit c then (digitsFrom isDigit s).map fun (ds, rest) => (c :: ds, rest) else none

/-- An optional sign: whether it is a minus. -/
def sign : List Char → Bool × List Char
  | '-' :: s => (true, s)
  | '+' :: s => (false, s)
  | s => (false, s)

/-- The digits of a decimal integer without sign: a zero, or digits that begin with no zero. -/
def decimal? : Scan (List Char)
  | '0' :: s => some (['0'], s)
  | s => digits? Char.isDigit s

/-- The value of a hexadecimal digit. -/
def hexValue (c : Char) : Nat :=
  if c.isDigit then c.toNat - '0'.toNat
  else if 'a' ≤ c then c.toNat - 'a'.toNat + 10
  else c.toNat - 'A'.toNat + 10

/-- Whether a character is a hexadecimal digit. -/
def isHexDigit (c : Char) : Bool :=
  c.isDigit || ('a' ≤ c && c ≤ 'f') || ('A' ≤ c && c ≤ 'F')

/-- The value of digits in a base up to 16. -/
def valueIn (base : Nat) (ds : List Char) : Nat := ds.foldl (fun n c => base * n + hexValue c) 0

/-- An integer of 64 bits. -/
def bounded? (n : Int) : Option Int :=
  if -9223372036854775808 ≤ n ∧ n < 9223372036854775808 then some n else none

/-- Digits in a base, behind the mark of the base. -/
def based? (base : Nat) (isDigit : Char → Bool) (s : List Char) : Option (Int × List Char) :=
  (digits? isDigit s).bind fun (ds, rest) =>
    (bounded? (valueIn base ds)).map fun n => (n, rest)

/-- An integer. -/
def integer? (s : List Char) : Option (Int × List Char) :=
  match s with
  | '0' :: 'x' :: s => based? 16 isHexDigit s
  | '0' :: 'o' :: s => based? 8 (fun c => '0' ≤ c && c ≤ '7') s
  | '0' :: 'b' :: s => based? 2 (fun c => c == '0' || c == '1') s
  | s =>
    let (negative, s) := sign s
    (decimal? s).bind fun (ds, rest) =>
      let n : Int := valueIn 10 ds
      (bounded? (if negative then -n else n)).map fun n => (n, rest)

/-- An exponent, with its mark. -/
def exponent? : Scan Int
  | c :: s =>
    if c = 'e' ∨ c = 'E' then
      let (negative, s) := sign s
      (digits? Char.isDigit s).map fun (ds, rest) =>
        let n : Int := valueIn 10 ds
        (if negative then -n else n, rest)
    else none
  | [] => none

/-- Whether `m * 10 ^ e`, rounded to double precision, is no longer finite. The limit lies halfway
between the largest finite number and the next power of two. Far from it the number of digits
decides. -/
def overflows (m : Nat) (e : Int) : Bool :=
  let size : Int := (Nat.toDigits 10 m).length + e
  if m = 0 ∨ size < 300 then false
  else if 320 < size then true
  else
    let limit := Nat.pow 2 1024 - Nat.pow 2 970
    if 0 ≤ e then limit ≤ m * Nat.pow 10 e.toNat else limit * Nat.pow 10 (-e).toNat ≤ m

/-- Whether a floating-point number stands here: an integer with a fraction, an exponent or both, or
one of the words for infinity and not-a-number. What follows it is given. -/
def float? (s : List Char) : Option (List Char) :=
  let (negative, s) := sign s
  match s with
  | 'i' :: 'n' :: 'f' :: s => some s
  | 'n' :: 'a' :: 'n' :: s => some s
  | s =>
    (decimal? s).bind fun (whole, s) =>
      let finish (fraction : List Char) (e : Int) (rest : List Char) : Option (List Char) :=
        if !negative && overflows (valueIn 10 (whole ++ fraction)) (e - fraction.length) then none
        else some rest
      match s with
      | '.' :: s =>
        (digits? Char.isDigit s).bind fun (fraction, s) =>
          match s with
          | 'e' :: _ | 'E' :: _ =>
            (exponent? s).bind fun (e, rest) => finish fraction e rest
          | rest => finish fraction 0 rest
      | s => (exponent? s).bind fun (e, rest) => finish [] e rest

/-- A number of exactly `n` digits between two bounds. -/
def fixed? (n low high : Nat) (s : List Char) : Option (Nat × List Char) :=
  let ds := s.take n
  if ds.length = n ∧ ds.all Char.isDigit then
    let v := valueIn 10 ds
    if low ≤ v ∧ v ≤ high then some (v, s.drop n) else none
  else none

/-- Skips one expected character. -/
def expect? (c : Char) : List Char → Option (List Char)
  | d :: s => if d = c then some s else none
  | [] => none

/-- Days of a month. -/
def daysIn (year month : Nat) : Nat :=
  if month = 2 then
    if year % 4 = 0 ∧ (year % 100 ≠ 0 ∨ year % 400 = 0) then 29 else 28
  else if month ∈ [4, 6, 9, 11] then 30
  else 31

/-- Skips a date. -/
def date? (s : List Char) : Option (List Char) := do
  let (year, s) ← fixed? 4 0 9999 s
  let s ← expect? '-' s
  let (month, s) ← fixed? 2 1 12 s
  let s ← expect? '-' s
  let (_, s) ← fixed? 2 1 (daysIn year month) s
  return s

/-- Skips a fraction of a second, if there is one. -/
def secondFraction? : List Char → Option (List Char)
  | '.' :: s =>
    if s.head?.any Char.isDigit then some (s.dropWhile Char.isDigit) else some ('.' :: s)
  | s => some s

/-- Skips a time of day. -/
def time? (s : List Char) : Option (List Char) := do
  let (_, s) ← fixed? 2 0 23 s
  let s ← expect? ':' s
  let (_, s) ← fixed? 2 0 59 s
  let s ← expect? ':' s
  let (_, s) ← fixed? 2 0 60 s
  secondFraction? s

/-- Skips an offset from universal time, if there is one. -/
def offset? : List Char → Option (List Char)
  | c :: s =>
    if c = 'Z' ∨ c = 'z' then some s
    else if c = '+' ∨ c = '-' then do
      let (_, s) ← fixed? 2 0 23 s
      let s ← expect? ':' s
      let (_, s) ← fixed? 2 0 59 s
      return s
    else some (c :: s)
  | [] => some []

/-- Skips a date, a time, or a date and a time with or without an offset. A blank between a date and
something that is no time does not belong to the date. -/
def datetime? (s : List Char) : Option (List Char) :=
  match date? s with
  | none => time? s
  | some s =>
    match s with
    | c :: t =>
      if c = 'T' ∨ c = 't' ∨ c = ' ' then
        match time? t with
        | some t => offset? t
        | none => some s
      else some s
    | [] => some []

/-- A number or a date. -/
def number? (s : List Char) : Option (Item × List Char) :=
  match datetime? s with
  | some rest => some (.datetime, rest)
  | none => match float? s with
    | some rest => some (.float, rest)
    | none => (integer? s).map fun (n, rest) => (.integer n, rest)

end EditorConfig.Toml
