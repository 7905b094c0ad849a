import EditorConfig.Glob
import Mathlib.Algebra.Group.Int.Defs
import Mathlib.Algebra.Group.Nat.Defs
import Mathlib.Data.List.Basic
/-!
# The language of a pattern text

What a pattern text means, by recursion on the text and without a matcher: `Denotes prev g s` says
that the text `g`, written behind the character `prev` or at the beginning of a pattern, matches
`s`. The constructs are given by their form. A bracket expression is cut into pieces, the inside of
braces is balanced, and a numeral is a sign and digits; how a reader finds their ends is not said
here.
-/
namespace EditorConfig.Glob

/-! ## Bracket expressions -/

/-- A character as it is written in a bracket expression. -/
inductive Piece where
  | plain (c : Char)
  | escaped (c : Char)

/-- The character that a piece lists. -/
def Piece.char : Piece → Char
  | plain c => c
  | escaped c => c

/-- How a piece is written. -/
def Piece.text : Piece → List Char
  | plain c => [c]
  | escaped c => ['\\', c]

/-- `s` is the text behind the opening bracket of a closed expression: the mark of a negation or
none, the pieces of `body`, the closing bracket and `rest`. The first piece may be a bracket, any
other closing bracket is escaped. -/
structure Bracketed (s : List Char) (negated : Bool) (body : List Piece) (rest : List Char) :
    Prop where
  written : ∃ mark, s = mark ++ body.flatMap Piece.text ++ ']' :: rest ∧
    ((negated = true ∧ (mark = ['!'] ∨ mark = ['^'])) ∨
      (negated = false ∧ mark = [] ∧ body.head? ≠ some (.plain '!') ∧
        body.head? ≠ some (.plain '^')))
  nonempty : body ≠ []
  unescaped : ∀ p ∈ body, p ≠ .plain '\\'
  inside : ∀ p ∈ body.tail, p ≠ .plain ']'

/-- Whether the pieces list `d`, by itself or in a range of two pieces with a plain dash between
them. -/
def Listed (d : Char) : List Piece → Prop
  | low :: .plain '-' :: high :: rest => (low.char ≤ d ∧ d ≤ high.char) ∨ Listed d rest
  | p :: rest => d = p.char ∨ Listed d rest
  | [] => False

/-- The characters that a bracket expression stands for. -/
def Chosen (negated : Bool) (body : List Piece) (d : Char) : Prop :=
  if negated = true then d ≠ '/' ∧ ¬ Listed d body else Listed d body

/-! ## Braces -/

/-- Every unescaped brace has its partner, and no backslash stands alone at the end. -/
inductive Balanced : List Char → Prop
  | nil : Balanced []
  | plain {c : Char} {s : List Char} (escape : c ≠ '\\') (opening : c ≠ '{') (closing : c ≠ '}') :
      Balanced s → Balanced (c :: s)
  | escaped {c : Char} {s : List Char} : Balanced s → Balanced ('\\' :: c :: s)
  | group {s t : List Char} : Balanced s → Balanced t → Balanced ('{' :: s ++ '}' :: t)

/-- A balanced text whose commas are escaped or inside of braces. -/
inductive Branch : List Char → Prop
  | nil : Branch []
  | plain {c : Char} {s : List Char} (escape : c ≠ '\\') (opening : c ≠ '{') (closing : c ≠ '}')
      (comma : c ≠ ',') : Branch s → Branch (c :: s)
  | escaped {c : Char} {s : List Char} : Branch s → Branch ('\\' :: c :: s)
  | group {s t : List Char} : Balanced s → Branch t → Branch ('{' :: s ++ '}' :: t)

/-- `inner` is two or more branches with commas between them. -/
structure Choices (inner : List Char) (branches : List (List Char)) : Prop where
  written : inner = [','].intercalate branches
  several : 2 ≤ branches.length
  branch : ∀ b ∈ branches, Branch b

/-- The value of decimal digits. -/
def digitsValue (digits : List Char) : Nat := Nat.ofDigitChars 10 digits 0

/-- One or more decimal digits. -/
def Digits (s : List Char) : Prop := s ≠ [] ∧ ∀ c ∈ s, c.isDigit = true

/-- `s` is an optional sign and `w` digits, and writes `k`. -/
def Numeral (s : List Char) (k : Int) (w : Nat) : Prop :=
  ∃ sign digits, s = sign ++ digits ∧ Digits digits ∧ digits.length = w ∧
    ((sign = ['-'] ∧ k = -(digitsValue digits : Int)) ∨
      ((sign = [] ∨ sign = ['+']) ∧ k = digitsValue digits))

/-- `inner` is two 64-bit numerals with two dots between them; `width` is their common number of
digits, if there is one. -/
def NumeralRange (inner : List Char) (low high : Int) (width : Option Nat) : Prop :=
  ∃ left right m n, inner = left ++ '.' :: '.' :: right ∧ Numeral left low m ∧
    Numeral right high n ∧ (-2 ^ 63 ≤ low ∧ low < 2 ^ 63) ∧ (-2 ^ 63 ≤ high ∧ high < 2 ^ 63) ∧
    width = if m = n then some m else none

/-- `s` spells `k`: a minus sign if `k` is negative, and digits that are as many as `width` says or,
without a width, do not begin with a zero that could be left out. -/
def Spelling (width : Option Nat) (k : Int) (s : List Char) : Prop :=
  ∃ digits, s = (if k < 0 then ['-'] else []) ++ digits ∧ Digits digits ∧
    digitsValue digits = k.natAbs ∧
    match width with
    | some w => digits.length = w
    | none => digits.head? = some '0' → digits = ['0']

/-- Text behind a brace that opens a range or a choice. -/
def OpensGroup (s : List Char) : Prop :=
  ∃ inner rest, s = inner ++ '}' :: rest ∧
    ((∃ low high width, NumeralRange inner low high width) ∨ ∃ branches, Choices inner branches)

/-! ## Patterns -/

/-- A place where a path segment begins: at the start of a pattern or of an alternative, and
behind a separator. -/
def AtSegmentStart (prev : Option Char) : Prop := prev = none ∨ prev = some '/'

/-- The pattern text `g`, written behind the character `prev`, matches `s`. -/
inductive Denotes : Option Char → List Char → List Char → Prop
  | nil {prev : Option Char} : Denotes prev [] []
  | lastBackslash {prev : Option Char} : Denotes prev ['\\'] ['\\']
  | escaped {prev : Option Char} {c : Char} {g s : List Char} :
      Denotes (some c) g s → Denotes prev ('\\' :: c :: g) (c :: s)
  | anyChar {prev : Option Char} {d : Char} {g s : List Char} (inside : d ≠ '/') :
      Denotes (some '?') g s → Denotes prev ('?' :: g) (d :: s)
  | segment {prev : Option Char} {u g s : List Char} (single : g.head? ≠ some '*')
      (inside : '/' ∉ u) : Denotes (some '*') g s → Denotes prev ('*' :: g) (u ++ s)
  | anything {prev : Option Char} {n : Nat} {u stars g s : List Char}
      (run : stars = List.replicate n '*' ++ g) (all : g.head? ≠ some '*')
      (other : ¬ (AtSegmentStart prev ∧ g.head? = some '/')) :
      Denotes (some '*') g s → Denotes prev ('*' :: '*' :: stars) (u ++ s)
  | directories {prev : Option Char} {n : Nat} {u stars g s : List Char}
      (run : stars = List.replicate n '*' ++ '/' :: g) (start : AtSegmentStart prev)
      (whole : u = [] ∨ ∃ v, u = v ++ ['/']) :
      Denotes (some '/') g s → Denotes prev ('*' :: '*' :: stars) (u ++ s)
  | bracket {prev : Option Char} {negated : Bool} {body : List Piece} {d : Char}
      {t g s : List Char} (closed : Bracketed t negated body g)
      (inside : ∀ p ∈ body, p.char ≠ '/') (chosen : Chosen negated body d) :
      Denotes (some ']') g s → Denotes prev ('[' :: t) (d :: s)
  | plainBracket {prev : Option Char} {negated : Bool} {body : List Piece} {t g s : List Char}
      (closed : Bracketed t negated body g) (separator : ∃ p ∈ body, p.char = '/') :
      Denotes (some '[') t s → Denotes prev ('[' :: t) ('[' :: s)
  | numeral {prev : Option Char} {low high k : Int} {width : Option Nat} {inner t u g s : List Char}
      (braces : t = inner ++ '}' :: g) (range : NumeralRange inner low high width)
      (between : min low high ≤ k ∧ k ≤ max low high) (spelled : Spelling width k u) :
      Denotes (some '}') g s → Denotes prev ('{' :: t) (u ++ s)
  | choice {prev : Option Char} {branches : List (List Char)} {b inner t u g s : List Char}
      (braces : t = inner ++ '}' :: g) (choices : Choices inner branches) (member : b ∈ branches) :
      Denotes none b u → Denotes (some '}') g s → Denotes prev ('{' :: t) (u ++ s)
  | plainBrace {prev : Option Char} {t s : List Char} (plain : ¬ OpensGroup t) :
      Denotes (some '{') t s → Denotes prev ('{' :: t) ('{' :: s)
  | ordinary {prev : Option Char} {c : Char} {g s : List Char}
      (plain : c ∉ ['\\', '?', '*', '[', '{']) :
      Denotes (some c) g s → Denotes prev (c :: g) (c :: s)

/-- `c` is what a pattern is matched against: the path itself if a separator is written in the
pattern, and otherwise the text behind the path's last separator. -/
def Candidate (pattern path c : List Char) : Prop :=
  ('/' ∈ pattern ∧ c = path) ∨
    ('/' ∉ pattern ∧ '/' ∉ c ∧ (c = path ∨ ∃ directory, path = directory ++ '/' :: c))

end EditorConfig.Glob
