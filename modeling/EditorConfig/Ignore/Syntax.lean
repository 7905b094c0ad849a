import EditorConfig.Glob.Pattern
/-!
# The pattern language of ignore rules

Ignore rules are written in a language of their own. It has the wildcards of section patterns, but
two stars mean more than one only between separators, braces always group, and a bracket expression
that is never closed is an ordinary bracket. Patterns of this language are matched byte by byte: a
byte is represented by the character with its value, in patterns and in paths.
-/
namespace EditorConfig.Ignore

open Glob (Pattern Atom CharSet)

/-- Why a pattern is refused. -/
inductive SyntaxError where
  | unclosedGroup
  | unopenedGroup
  | danglingEscape
  | invalidRange (low high : Char)
deriving DecidableEq, Repr

/-- The wording of an error. -/
def SyntaxError.message : SyntaxError → String
  | unclosedGroup => "unclosed alternate group; missing '\x7d' (maybe escape '\x7b' with '[\x7b]'?)"
  | unopenedGroup => "unopened alternate group; missing '\x7b' (maybe escape '\x7d' with '[\x7d]'?)"
  | danglingEscape => "dangling '\\'"
  | invalidRange low high =>
    "invalid range; '" ++ low.toString ++ "' > '" ++ high.toString ++ "'"

/-- The bytes of a text, each as the character with its value. -/
def bytes (s : List Char) : List Char :=
  (String.ofList s).toUTF8.toList.map fun b => Char.ofNat b.toNat

/-- What a pattern is made of. -/
inductive Token where
  | literal (c : Char)
  /-- One character other than the separator. -/
  | any
  /-- Any text without a separator. -/
  | star
  /-- Two stars at the beginning: nothing, or directories. -/
  | leading
  /-- Two stars at the end: everything in a directory. -/
  | trailing
  /-- Two stars between separators: directories, or none. -/
  | between
  | set (negated : Bool) (ranges : List (Char × Char))
  /-- A group; one without any alternative that says something is nothing. -/
  | group (body : Option Pattern)
deriving DecidableEq, Repr

namespace Token

/-- A literal text in front of a pattern, byte by byte. -/
def literals (s : List Char) (rest : Pattern) : Pattern :=
  (bytes s).foldr (fun b e => .atom (.char b) e) rest

/-- The ranges of bytes that a range of characters stands for: the bytes of its ends, and the range
between the last byte of the one and the first byte of the other. -/
def byteRanges : Char × Char → List (Char × Char)
  | (low, high) =>
    let single (b : Char) := (b, b)
    if low = high then (bytes [low]).map single
    else
      let lows := bytes [low]
      let highs := bytes [high]
      lows.dropLast.map single ++
        (lows.getLastD '\x00', highs.headD '\x00') :: highs.tail.map single

/-- The token in front of a pattern. -/
def before (rest : Pattern) : Token → Pattern
  | literal c => literals [c] rest
  | any => .atom .anyChar rest
  | star => .atom .segment rest
  | leading => .atom .directories rest
  | trailing => .atom (.char '/') (.atom .anything rest)
  | between => .atom (.char '/') (.atom .directories rest)
  | set negated ranges => .atom (.oneOf ⟨negated, ranges.flatMap byteRanges⟩) rest
  | group none => rest
  | group (some body) => .group body rest

/-- Whether the token is nothing. -/
def isVoid : Token → Bool
  | group none => true
  | _ => false

/-- The pattern of some tokens. -/
def sequence (tokens : List Token) : Pattern := tokens.foldr (fun t e => t.before e) .nil

/-- The choice between some alternatives; those that say nothing do not count. -/
def choice (alternatives : List (List Token)) : Token :=
  match (alternatives.filter fun tokens => !tokens.all isVoid).map sequence with
  | [] => group none
  | first :: others => group (some (others.foldl (fun l r => .either l r) first))

end Token

/-- What is found at an opening bracket. -/
inductive SetReading where
  | unclosed
  | invalid (low high : Char)
  | closed (ranges : List (Char × Char)) (rest : List Char)

/-- Reads the members of a bracket expression. `first` says that nothing has been read yet,
`waiting` that a range waits for its end; `ranges` are the members so far, the latest first. -/
def readSet (first waiting : Bool) (ranges : List (Char × Char)) : List Char → SetReading
  | [] => .unclosed
  | c :: s =>
    if c = ']' ∧ first = false then
      .closed (if waiting then ('-', '-') :: ranges else ranges).reverse s
    else if c = '-' ∧ first = false ∧ waiting = false then readSet false true ranges s
    else match waiting, ranges with
      | true, (low, _) :: others =>
        if c < low then .invalid low c else readSet false false ((low, c) :: others) s
      | _, _ => readSet false false ((c, c) :: ranges) s

theorem length_of_readSet {first waiting : Bool} {ranges ranges' : List (Char × Char)}
    {s rest : List Char} (h : readSet first waiting ranges s = .closed ranges' rest) :
    rest.length < s.length := by
  fun_induction readSet first waiting ranges s with
  | case1 | case4 => cases h
  | case2 => cases h; simp
  | case3 | case5 | case6 =>
    rename_i ih
    have := ih h
    simp
    omega

/-- The alternatives of an open group that are finished and the tokens in front of the group, both
the latest first. -/
structure OpenGroup where
  finished : List (List Token)
  outside : List Token

/-- A pattern being read: the groups that are open, the innermost first, the tokens of the current
alternative, the latest first, and whether a bracket turned out not to be closed. -/
structure Reading where
  groups : List OpenGroup
  tokens : List Token
  literalBrackets : Bool

namespace Reading

/-- Adds a token. -/
def push (r : Reading) (t : Token) : Reading := { r with tokens := t :: r.tokens }

/-- Opens a group. -/
def openGroup (r : Reading) : Reading :=
  { r with groups := ⟨[], r.tokens⟩ :: r.groups, tokens := [] }

/-- Closes the innermost group. -/
def closeGroup (r : Reading) : Except SyntaxError Reading :=
  match r.groups with
  | [] => .error .unopenedGroup
  | g :: outer =>
    let alternatives := (r.tokens :: g.finished).reverse.map List.reverse
    .ok { r with groups := outer, tokens := Token.choice alternatives :: g.outside }

/-- Begins another alternative; outside groups a comma is an ordinary character. -/
def comma (r : Reading) : Reading :=
  match r.groups with
  | [] => r.push (.literal ',')
  | g :: outer =>
    { r with groups := { g with finished := r.tokens :: g.finished } :: outer, tokens := [] }

/-- Puts what two stars between separators mean in the place of the separator in front of them.
Stars next to stars that take in whole directories add nothing. -/
def replaceSeparator (r : Reading) (t : Token) : Reading :=
  match r.tokens with
  | .leading :: _ => r
  | .trailing :: _ => r
  | _ :: tokens => { r with tokens := t :: tokens }
  | [] => r

/-- Two stars behind `prev`, with `s` behind them: the tokens they make, and what is left. -/
def twoStars (r : Reading) (prev : Option Char) (s : List Char) : Reading × List Char :=
  let plain := ((r.push .star).push .star, s)
  if r.tokens.isEmpty then
    match s with
    | [] => (r.push .leading, [])
    | '/' :: rest => (r.push .leading, rest)
    | _ => plain
  else if prev = some '/' ∨ (!r.groups.isEmpty ∧ (prev = some ',' ∨ prev = some '{')) then
    match s with
    | [] => (r.replaceSeparator .trailing, [])
    | '/' :: rest => (r.replaceSeparator .between, rest)
    | c :: _ =>
      if (c = ',' ∨ c = '}') ∧ !r.groups.isEmpty then (r.replaceSeparator .trailing, s) else plain
  else plain

theorem length_twoStars (r : Reading) (prev : Option Char) (s : List Char) :
    (r.twoStars prev s).2.length ≤ s.length := by
  unfold twoStars
  dsimp only
  repeat' split
  all_goals simp

end Reading

/-- Whether a bracket expression is negated, and what follows. -/
def negation : List Char → Bool × List Char
  | '!' :: s => (true, s)
  | '^' :: s => (true, s)
  | s => (false, s)

theorem length_negation_le (s : List Char) : (negation s).2.length ≤ s.length := by
  unfold negation
  split <;> simp

/-- Reads a pattern text from a place behind `prev`. -/
def readFrom (r : Reading) (prev : Option Char) (s : List Char) : Except SyntaxError Reading :=
  match s with
  | [] => .ok r
  | '\\' :: [] => .error .danglingEscape
  | '\\' :: c :: s => readFrom (r.push (.literal c)) (some c) s
  | '?' :: s => readFrom (r.push .any) (some '?') s
  | '*' :: '*' :: s =>
    have _h := Reading.length_twoStars r prev s
    readFrom (r.twoStars prev s).1
      (if (r.twoStars prev s).2.length < s.length then some '/' else some '*')
      (r.twoStars prev s).2
  | '*' :: s => readFrom (r.push .star) (some '*') s
  | '{' :: s => readFrom r.openGroup (some '{') s
  | '}' :: s =>
    match r.closeGroup with
    | .error e => .error e
    | .ok r => readFrom r (some '}') s
  | ',' :: s => readFrom r.comma (some ',') s
  | '[' :: s =>
    if r.literalBrackets then readFrom (r.push (.literal '[')) (some '[') s
    else match _h : readSet true false [] (negation s).2 with
      | .unclosed => readFrom { r.push (.literal '[') with literalBrackets := true } (some '[') s
      | .invalid low high => .error (.invalidRange low high)
      | .closed ranges rest => readFrom (r.push (.set (negation s).1 ranges)) (some ']') rest
  | c :: s => readFrom (r.push (.literal c)) (some c) s
termination_by s.length
decreasing_by
  all_goals simp only [List.length_cons]
  all_goals first
    | omega
    | (have h := length_of_readSet _h; have h' := length_negation_le s; omega)

/-- Reads a pattern text. Two stars alone match everything. -/
def readPattern (s : List Char) : Except SyntaxError Pattern :=
  match readFrom ⟨[], [], false⟩ none s with
  | .error e => .error e
  | .ok r =>
    if !r.groups.isEmpty then .error .unclosedGroup
    else if r.tokens = [.leading] then .ok (.atom .anything .nil)
    else .ok (Token.sequence r.tokens.reverse)

end EditorConfig.Ignore
