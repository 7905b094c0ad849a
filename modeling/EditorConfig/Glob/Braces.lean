/-!
# Braces

`{a,b}` offers alternatives. A brace closes when the unescaped braces opened since are closed,
and the commas that separate alternatives are the unescaped ones outside inner braces. Bracket
expressions are not looked at.
-/
namespace EditorConfig.Glob.Braces

/-- Cuts at the brace that closes a group, `depth` inner groups being open: the text in front of
it and the text behind it. -/
def close? (depth : Nat) : List Char → Option (List Char × List Char)
  | [] => none
  | '\\' :: c :: s => (close? depth s).map fun (inner, rest) => ('\\' :: c :: inner, rest)
  | '\\' :: [] => none
  | '{' :: s => (close? (depth + 1) s).map fun (inner, rest) => ('{' :: inner, rest)
  | '}' :: s =>
    match depth with
    | 0 => some ([], s)
    | depth + 1 => (close? depth s).map fun (inner, rest) => ('}' :: inner, rest)
  | c :: s => (close? depth s).map fun (inner, rest) => (c :: inner, rest)

/-- Puts a text in front of the first of some parts. -/
def onFirst (s : List Char) : List (List Char) → List (List Char)
  | [] => [s]
  | part :: parts => (s ++ part) :: parts

/-- Splits at the commas outside inner groups, `depth` of which are open. -/
def split (depth : Nat) : List Char → List (List Char)
  | [] => [[]]
  | '\\' :: c :: s => onFirst ['\\', c] (split depth s)
  | '{' :: s => onFirst ['{'] (split (depth + 1) s)
  | '}' :: s => onFirst ['}'] (split (depth - 1) s)
  | c :: s => if c = ',' ∧ depth = 0 then [] :: split depth s else onFirst [c] (split depth s)

/-- Total size of some parts, one comma or end counted for each. -/
def size : List (List Char) → Nat
  | [] => 0
  | part :: parts => part.length + 1 + size parts

theorem length_of_close? {depth : Nat} {s inner rest : List Char}
    (h : close? depth s = some (inner, rest)) : inner.length + rest.length < s.length := by
  fun_induction close? depth s generalizing inner rest with
  | case1 => simp at h
  | case3 => simp at h
  | case5 =>
    obtain ⟨rfl, rfl⟩ := Prod.mk.inj (Option.some.inj h)
    simp
  | case2 _ _ _ ih | case4 _ _ ih | case6 _ _ ih | case7 _ _ _ _ _ _ _ ih =>
    obtain ⟨⟨b, r⟩, hb, he⟩ := Option.map_eq_some_iff.1 h
    obtain ⟨rfl, rfl⟩ := Prod.mk.inj he
    have := ih hb
    simp
    omega

theorem split_ne_nil (depth : Nat) (s : List Char) : split depth s ≠ [] := by
  fun_cases split depth s <;> simp [onFirst] <;> split <;> simp

theorem size_onFirst (s : List Char) (parts : List (List Char)) (h : parts ≠ []) :
    size (onFirst s parts) = s.length + size parts := by
  cases parts with
  | nil => exact absurd rfl h
  | cons part parts => simp [onFirst, size]; omega

/-- Splitting loses nothing but the commas. -/
theorem size_split (depth : Nat) (s : List Char) : size (split depth s) = s.length + 1 := by
  fun_induction split depth s with
  | case1 => rfl
  | case5 _ c s _ _ _ h ih => simp only [size, ih, List.length_cons, List.length_nil]; omega
  | case2 _ _ _ ih | case3 _ _ ih | case4 _ _ ih | case6 _ _ _ _ _ _ _ ih =>
    rw [size_onFirst _ _ (split_ne_nil _ _), ih]
    simp
    try omega

end EditorConfig.Glob.Braces
