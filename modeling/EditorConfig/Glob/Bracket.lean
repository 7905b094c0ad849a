import EditorConfig.Glob.Pattern
/-!
# Bracket expressions

`[abc]`, `[a-z]`, `[!x]` and `[^x]` stand for one character. A `]` right after the opening is a
member, a backslash makes the next character a plain member, and a bracket expression never
contains a separator: if one is written inside, the opening bracket is an ordinary character.
-/
namespace EditorConfig.Glob.Bracket

/-- Cuts at the closing bracket: the text in front of it, escapes included, and the text behind
it. The closing bracket is the first one that is not escaped and, when `first`, not the first
character. -/
def close? (first : Bool) : List Char → Option (List Char × List Char)
  | [] => none
  | '\\' :: c :: s => (close? false s).map fun (body, rest) => ('\\' :: c :: body, rest)
  | '\\' :: [] => none
  | c :: s =>
    if c = ']' ∧ first = false then some ([], s)
    else (close? false s).map fun (body, rest) => (c :: body, rest)

/-- The characters of a body, each with whether it was escaped. -/
def unescape : List Char → List (Char × Bool)
  | '\\' :: c :: s => (c, true) :: unescape s
  | c :: s => (c, false) :: unescape s
  | [] => []

/-- The members of a body: a plain `-` between two characters makes a range of them. -/
def members : List (Char × Bool) → List (Char × Char)
  | (low, _) :: ('-', false) :: (high, _) :: s => (low, high) :: members s
  | (c, _) :: s => (c, c) :: members s
  | [] => []

/-- What stands at an opening bracket. -/
inductive Reading where
  /-- No bracket closes it. -/
  | unclosed
  /-- It is an ordinary character. -/
  | plain
  /-- One character of `set`, followed by `rest`. -/
  | set (set : CharSet) (rest : List Char)
deriving DecidableEq, Repr

/-- Whether the body excludes its members, and the body itself. -/
def negation : List Char → Bool × List Char
  | '!' :: s => (true, s)
  | '^' :: s => (true, s)
  | s => (false, s)

/-- Reads the text behind an opening bracket. A negated expression excludes the separator too. -/
def read (s : List Char) : Reading :=
  let (negated, s) := negation s
  match close? true s with
  | none => .unclosed
  | some (body, rest) =>
    if body.contains '/' then .plain
    else
      let ranges := members (unescape body)
      .set ⟨negated, if negated then ('/', '/') :: ranges else ranges⟩ rest

theorem length_of_close? {first : Bool} {s body rest : List Char}
    (h : close? first s = some (body, rest)) : body.length + rest.length < s.length := by
  fun_induction close? first s generalizing body rest with
  | case1 => simp at h
  | case2 first c s ih =>
    obtain ⟨⟨b, r⟩, hb, he⟩ := Option.map_eq_some_iff.1 h
    obtain ⟨rfl, rfl⟩ := Prod.mk.inj he
    have := ih hb
    simp
    omega
  | case3 => simp at h
  | case4 first c s _ _ hc =>
    obtain ⟨rfl, rfl⟩ := Prod.mk.inj (Option.some.inj h)
    simp
  | case5 first c s _ _ hc ih =>
    obtain ⟨⟨b, r⟩, hb, he⟩ := Option.map_eq_some_iff.1 h
    obtain ⟨rfl, rfl⟩ := Prod.mk.inj he
    have := ih hb
    simp
    omega

theorem length_negation (s : List Char) : (negation s).2.length ≤ s.length := by
  unfold negation
  split <;> simp

theorem length_of_read {s rest : List Char} {set : CharSet} (h : read s = .set set rest) :
    rest.length < s.length := by
  unfold read at h
  have hn := length_negation s
  generalize negation s = n at h hn
  obtain ⟨negated, t⟩ := n
  dsimp only at h hn
  split at h
  · cases h
  · next body r hc =>
    have := length_of_close? hc
    split at h
    · cases h
    · cases h
      omega

end EditorConfig.Glob.Bracket
