import EditorConfig.Toml.Number
/-!
# TOML strings

Strings of four kinds: with escapes or without, on one line or on several. In a string of several
lines a line end right behind the opening quotes is dropped, every line end counts as a line feed,
and one or two quotes may stand anywhere, also in front of the closing ones.
-/
namespace EditorConfig.Toml

/-- Characters that stand for themselves in a string with escapes. -/
def isBasicChar (c : Char) : Bool :=
  c == '\t' || ((' ' ≤ c && c ≤ '~') && c != '"' && c != '\\') || 128 ≤ c.toNat

/-- Characters that may stand in a string without escapes. -/
def isLiteralChar (c : Char) : Bool :=
  c == '\t' || ((' ' ≤ c && c ≤ '~') && c != '\'') || 128 ≤ c.toNat

/-- A character written with exactly `n` hexadecimal digits. -/
def codePoint? (n : Nat) (s : List Char) : Option (Char × List Char) :=
  let ds := s.take n
  if ds.length = n ∧ ds.all isHexDigit then
    let v := valueIn 16 ds
    if h : v.isValidChar then some (Char.ofNatAux v h, s.drop n) else none
  else none

/-- What follows a backslash. -/
def escape? : Scan Char
  | 'b' :: s => some ('\x08', s)
  | 'f' :: s => some ('\x0C', s)
  | 'n' :: s => some ('\n', s)
  | 'r' :: s => some ('\r', s)
  | 't' :: s => some ('\t', s)
  | '"' :: s => some ('"', s)
  | '\\' :: s => some ('\\', s)
  | 'u' :: s => codePoint? 4 s
  | 'U' :: s => codePoint? 8 s
  | _ => none

/-- The rest of a string with escapes on one line. Each round takes at least one character. -/
def basic? : Nat → Scan (List Char)
  | 0, _ => none
  | rounds + 1, s =>
    match s with
    | '"' :: rest => some ([], rest)
    | '\\' :: s => do
      let (c, s) ← escape? s
      let (cs, rest) ← basic? rounds s
      return (c :: cs, rest)
    | c :: s => do
      guard (isBasicChar c)
      let (cs, rest) ← basic? rounds s
      return (c :: cs, rest)
    | [] => none

/-- The rest of a string without escapes on one line. -/
def literal? (s : List Char) : Option (List Char × List Char) :=
  match s.dropWhile isLiteralChar with
  | '\'' :: rest => some (s.takeWhile isLiteralChar, rest)
  | _ => none

/-- Skips blanks and line ends, as many as there are. -/
def skipBlankLines : List Char → List Char
  | '\r' :: '\n' :: s => skipBlankLines s
  | c :: s => if isSpace c || c == '\n' then skipBlankLines s else c :: s
  | [] => []

/-- What follows a backslash at the end of a line, blanks and line ends skipped. -/
def continuation? (s : List Char) : Option (List Char) :=
  (newline? (skipSpace s)).map skipBlankLines

/-- Where three or more quotes stand: the quotes that belong to the text, at most two of them in
front of the closing three, and what follows. -/
def closing (quote : Char) (s : List Char) : List Char × List Char :=
  let extra := min 2 ((s.takeWhile (· == quote)).length - 3)
  (s.take extra, s.drop (extra + 3))

/-- Whether three quotes stand here. -/
def startsClosing (quote : Char) (s : List Char) : Bool := s.take 3 == [quote, quote, quote]

/-- The rest of a string with escapes on several lines. -/
def longBasic? : Nat → Scan (List Char)
  | 0, _ => none
  | rounds + 1, s =>
    if startsClosing '"' s then some (closing '"' s)
    else match s with
    | '\\' :: s =>
      match continuation? s with
      | some s => longBasic? rounds s
      | none => do
        let (c, s) ← escape? s
        let (cs, rest) ← longBasic? rounds s
        return (c :: cs, rest)
    | '\r' :: '\n' :: s | '\n' :: s => do
      let (cs, rest) ← longBasic? rounds s
      return ('\n' :: cs, rest)
    | c :: s => do
      guard (isBasicChar c || c == '"')
      let (cs, rest) ← longBasic? rounds s
      return (c :: cs, rest)
    | [] => none

/-- The rest of a string without escapes on several lines. -/
def longLiteral? : Nat → Scan (List Char)
  | 0, _ => none
  | rounds + 1, s =>
    if startsClosing '\'' s then some (closing '\'' s)
    else match s with
    | '\r' :: '\n' :: s | '\n' :: s => do
      let (cs, rest) ← longLiteral? rounds s
      return ('\n' :: cs, rest)
    | c :: s => do
      guard (isLiteralChar c || c == '\'')
      let (cs, rest) ← longLiteral? rounds s
      return (c :: cs, rest)
    | [] => none

/-- Drops a line end behind the opening quotes. -/
def dropNewline (s : List Char) : List Char := (newline? s).getD s

/-- A string of any kind. -/
def string? (s : List Char) : Option (String × List Char) :=
  let found := match s with
    | '"' :: '"' :: '"' :: s => longBasic? (s.length + 1) (dropNewline s)
    | '"' :: s => basic? (s.length + 1) s
    | '\'' :: '\'' :: '\'' :: s => longLiteral? (s.length + 1) (dropNewline s)
    | '\'' :: s => literal? s
    | _ => none
  found.map fun (cs, rest) => (String.ofList cs, rest)

end EditorConfig.Toml
