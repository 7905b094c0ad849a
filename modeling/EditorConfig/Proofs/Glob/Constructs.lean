import EditorConfig.Proofs.Glob.Bracket
import EditorConfig.Proofs.Glob.Braces
import EditorConfig.Proofs.Glob.Matching
import Mathlib.Data.List.TakeWhile
/-!
# What the constructs denote

The language of a pattern text, unfolded at its first construct. Each construct denotes a text of
its own followed by a text of what is written behind it; the lemmas say which, in the terms in which
a pattern that was read says it.
-/
namespace EditorConfig.Glob

variable {prev : Option Char} {c : Char} {g s t inner rest : List Char}

theorem then_one {p : Char → Bool} {M : List Char → Prop} :
    Then (One p) M s ↔ ∃ d t, s = d :: t ∧ p d = true ∧ M t := by
  constructor
  · rintro ⟨_, v, rfl, ⟨d, hd, rfl⟩, hv⟩
    exact ⟨d, v, rfl, hd, hv⟩
  · rintro ⟨d, t, rfl, hd, ht⟩
    exact ⟨[d], t, rfl, ⟨d, hd, rfl⟩, ht⟩

theorem then_char {M : List Char → Prop} :
    Then (One (· == c)) M s ↔ ∃ t, s = c :: t ∧ M t := by
  simp [then_one]

theorem inSegment_iff : inSegment c = true ↔ c ≠ '/' := by
  simp [inSegment]

theorem run_inSegment_iff : Run inSegment s ↔ '/' ∉ s := by
  constructor
  · intro h hs
    exact inSegment_iff.mp (h '/' hs) rfl
  · rintro h c hc
    exact inSegment_iff.mpr fun he => h (he ▸ hc)

theorem denotes_nil : Denotes prev [] s ↔ s = [] := by
  constructor
  · intro h
    cases h
    rfl
  · rintro rfl
    exact .nil

theorem denotes_lastBackslash : Denotes prev ['\\'] s ↔ s = ['\\'] := by
  constructor
  · intro h
    cases h with
    | lastBackslash => rfl
    | ordinary plain _ => simp at plain
  · rintro rfl
    exact .lastBackslash

theorem denotes_escaped :
    Denotes prev ('\\' :: c :: g) s ↔ Then (One (· == c)) (Denotes (some c) g) s := by
  rw [then_char]
  constructor
  · intro h
    cases h with
    | escaped h => exact ⟨_, rfl, h⟩
    | ordinary plain _ => simp at plain
  · rintro ⟨t, rfl, h⟩
    exact .escaped h

theorem denotes_ordinary (plain : c ∉ ['\\', '?', '*', '[', '{']) :
    Denotes prev (c :: g) s ↔ Then (One (· == c)) (Denotes (some c) g) s := by
  rw [then_char]
  constructor
  · intro h
    cases h with
    | ordinary _ h => exact ⟨_, rfl, h⟩
    | _ => simp at plain
  · rintro ⟨t, rfl, h⟩
    exact .ordinary plain h

/-! ## Wildcards -/

theorem denotes_anyChar :
    Denotes prev ('?' :: g) s ↔ Then (One inSegment) (Denotes (some '?') g) s := by
  rw [then_one]
  constructor
  · intro h
    cases h with
    | anyChar inside h => exact ⟨_, _, rfl, inSegment_iff.mpr inside, h⟩
    | ordinary plain _ => simp at plain
  · rintro ⟨d, t, rfl, hd, h⟩
    exact .anyChar (inSegment_iff.mp hd) h

theorem denotes_segment (single : g.head? ≠ some '*') :
    Denotes prev ('*' :: g) s ↔ Then (Run inSegment) (Denotes (some '*') g) s := by
  constructor
  · intro h
    cases h with
    | segment _ inside h => exact ⟨_, _, rfl, run_inSegment_iff.mpr inside, h⟩
    | anything _ _ _ _ => simp at single
    | directories _ _ _ _ => simp at single
    | ordinary plain _ => simp at plain
  · rintro ⟨u, v, rfl, hu, h⟩
    exact .segment single (run_inSegment_iff.mp hu) h

theorem dropWhile_stars {n : Nat} (h : g.head? ≠ some '*') :
    (List.replicate n '*' ++ g).dropWhile (· == '*') = g := by
  rw [List.dropWhile_append_of_pos fun c hc => beq_iff_eq.mpr (List.eq_of_mem_replicate hc)]
  cases g with
  | nil => rfl
  | cons c g =>
    have hc : c ≠ '*' := fun hc => h (congrArg some hc)
    simp [hc]

theorem exists_stars (t : List Char) :
    ∃ n, t = List.replicate n '*' ++ t.dropWhile (· == '*') := by
  have stars : t.takeWhile (· == '*') = List.replicate (t.takeWhile (· == '*')).length '*' :=
    List.eq_replicate_of_mem fun c hc => by simpa using List.mem_takeWhile_imp hc
  refine ⟨(t.takeWhile (· == '*')).length, ?_⟩
  rw [← stars, List.takeWhile_append_dropWhile]

theorem head?_dropWhile_stars (t : List Char) : (t.dropWhile (· == '*')).head? ≠ some '*' := by
  intro h
  have := List.head?_dropWhile_not (· == '*') t
  rw [h] at this
  simp at this

theorem denotes_directories (run : t.dropWhile (· == '*') = '/' :: g)
    (start : AtSegmentStart prev) :
    Denotes prev ('*' :: '*' :: t) s ↔ Then Directories (Denotes (some '/') g) s := by
  constructor
  · intro h
    cases h with
    | segment single _ _ => simp at single
    | anything hrun all other _ =>
      rw [hrun, dropWhile_stars all] at run
      exact (other ⟨start, congrArg List.head? run⟩).elim
    | directories hrun _ whole h =>
      rw [hrun, dropWhile_stars (by simp)] at run
      obtain ⟨-, rfl⟩ := List.cons.inj run
      exact ⟨_, _, rfl, whole, h⟩
    | ordinary plain _ => simp at plain
  · rintro ⟨u, v, rfl, whole, h⟩
    obtain ⟨n, hn⟩ := exists_stars t
    exact .directories (run ▸ hn) start whole h

theorem denotes_anything
    (other : ¬ (AtSegmentStart prev ∧ (t.dropWhile (· == '*')).head? = some '/')) :
    Denotes prev ('*' :: '*' :: t) s ↔
      Then (Run fun _ => true) (Denotes (some '*') (t.dropWhile (· == '*'))) s := by
  constructor
  · intro h
    cases h with
    | segment single _ _ => simp at single
    | anything hrun all _ h =>
      rw [hrun, dropWhile_stars all]
      exact ⟨_, _, rfl, fun _ _ => rfl, h⟩
    | directories hrun start _ _ =>
      rw [hrun, dropWhile_stars (by simp)] at other
      exact (other ⟨start, rfl⟩).elim
    | ordinary plain _ => simp at plain
  · rintro ⟨u, v, rfl, -, h⟩
    obtain ⟨n, hn⟩ := exists_stars t
    exact .anything hn (head?_dropWhile_stars t) other h

/-! ## Bracket expressions -/

theorem denotes_bracket {set : CharSet} (h : Bracket.read t = .set set rest) :
    Denotes prev ('[' :: t) s ↔ Then (One set.contains) (Denotes (some ']') rest) s := by
  rw [then_one]
  constructor
  · intro hs
    cases hs with
    | bracket closed inside chosen hs =>
      have found := h.symm.trans (Bracket.read_eq_set_iff.mpr ⟨_, _, closed, inside, rfl⟩)
      obtain ⟨rfl, rfl⟩ := Bracket.Reading.set.inj found
      exact ⟨_, _, rfl, Bracket.contains_charSet.mpr chosen, hs⟩
    | plainBracket closed separator _ =>
      cases h.symm.trans (Bracket.read_eq_plain_iff.mpr ⟨_, _, _, closed, separator⟩)
    | ordinary plain _ => simp at plain
  · rintro ⟨d, u, rfl, hd, hu⟩
    obtain ⟨negated, body, closed, inside, rfl⟩ := Bracket.read_eq_set_iff.mp h
    exact .bracket closed inside (Bracket.contains_charSet.mp hd) hu

theorem denotes_plainBracket (h : Bracket.read t = .plain) :
    Denotes prev ('[' :: t) s ↔ Then (One (· == '[')) (Denotes (some '[') t) s := by
  rw [then_char]
  constructor
  · intro hs
    cases hs with
    | bracket closed inside _ _ =>
      cases h.symm.trans (Bracket.read_eq_set_iff.mpr ⟨_, _, closed, inside, rfl⟩)
    | plainBracket _ _ hs => exact ⟨_, rfl, hs⟩
    | ordinary plain _ => simp at plain
  · rintro ⟨u, rfl, hu⟩
    obtain ⟨negated, body, g, closed, separator⟩ := Bracket.read_eq_plain_iff.mp h
    exact .plainBracket closed separator hu

/-! ## Braces -/

theorem mem_numerals {left right : List Char} {low high : Int} {m n : Nat}
    (hl : Numeral left low m) (hr : Numeral right high n)
    (hc : c ∈ left ++ '.' :: '.' :: right) : c = '.' ∨ c = '-' ∨ c = '+' ∨ c.isDigit = true := by
  simp only [List.mem_append, List.mem_cons] at hc
  rcases hc with hc | hc | hc | hc
  · exact .inr (Numerals.mem_numeral hl hc)
  · exact .inl hc
  · exact .inl hc
  · exact .inr (Numerals.mem_numeral hr hc)

/-- No character that a reader stops at is written in two numerals and the dots between them. -/
theorem not_mem_numerals {left right : List Char} {low high : Int} {m n : Nat}
    (hl : Numeral left low m) (hr : Numeral right high n)
    (special : c ∈ ['\\', '?', '*', '[', '{', ',', '}']) : c ∉ left ++ '.' :: '.' :: right := by
  intro hc
  simp only [List.mem_cons, List.not_mem_nil, or_false] at special
  rcases special with rfl | rfl | rfl | rfl | rfl | rfl | rfl <;>
    rcases mem_numerals hl hr hc with h | h | h | h <;> exact absurd h (by decide)

theorem balanced_numerals {left right : List Char} {low high : Int} {m n : Nat}
    (hl : Numeral left low m) (hr : Numeral right high n) :
    Balanced (left ++ '.' :: '.' :: right) := by
  refine .of_plain fun c hc special => ?_
  simp only [List.mem_cons, List.not_mem_nil, or_false] at special
  rcases special with rfl | rfl | rfl <;> exact not_mem_numerals hl hr (by decide) hc

theorem balanced_range {low high : Int} {width : Option Nat}
    (h : NumeralRange inner low high width) : Balanced inner := by
  obtain ⟨left, right, m, n, rfl, hl, hr, -⟩ := h
  exact balanced_numerals hl hr

theorem comma_mem_choices {branches : List (List Char)} (h : Choices inner branches) :
    ',' ∈ inner := by
  obtain ⟨rfl, several, -⟩ := h
  match branches with
  | b :: b' :: branches => simp [List.intercalate_cons_cons]

theorem not_choices_of_range {low high : Int} {width : Option Nat}
    (h : NumeralRange inner low high width) (branches : List (List Char)) :
    ¬ Choices inner branches := by
  intro hc
  obtain ⟨left, right, m, n, rfl, hl, hr, -⟩ := h
  exact not_mem_numerals hl hr (by decide) (comma_mem_choices hc)

theorem opensGroup_iff : OpensGroup t ↔ ∃ inner rest, Braces.close? 0 t = some (inner, rest) ∧
    ((∃ range, Numerals.parse? inner = some range) ∨ 2 ≤ (Braces.split 0 inner).length) := by
  constructor
  · rintro ⟨inner, rest, written, ⟨low, high, width, range⟩ | ⟨branches, choices⟩⟩
    · exact ⟨inner, rest, Braces.close?_eq_some_iff.mpr ⟨written, balanced_range range⟩,
        Or.inl ⟨⟨low, high, width⟩, Numerals.parse?_eq_some_iff.mpr range⟩⟩
    · obtain ⟨hsplit, several⟩ := (Braces.choices_iff_split choices.balanced).mp choices
      exact ⟨inner, rest, Braces.close?_eq_some_iff.mpr ⟨written, choices.balanced⟩,
        Or.inr (hsplit ▸ several)⟩
  · rintro ⟨inner, rest, hclose, ⟨range, hr⟩ | several⟩
    · exact ⟨inner, rest, (Braces.close?_eq_some_iff.mp hclose).1,
        Or.inl ⟨_, _, _, Numerals.parse?_eq_some_iff.mp hr⟩⟩
    · obtain ⟨written, balanced⟩ := Braces.close?_eq_some_iff.mp hclose
      exact ⟨inner, rest, written,
        Or.inr ⟨_, (Braces.choices_iff_split balanced).mpr ⟨rfl, several⟩⟩⟩

theorem close?_unique {inner' rest' : List Char} (h : Braces.close? 0 t = some (inner, rest))
    (written : t = inner' ++ '}' :: rest') (balanced : Balanced inner') :
    inner' = inner ∧ rest' = rest := by
  have := Braces.close?_eq_some_iff.mpr ⟨written, balanced⟩
  exact Prod.mk.inj (Option.some.inj (this.symm.trans h))

theorem parse?_choices {branches : List (List Char)} (choices : Choices inner branches) :
    Numerals.parse? inner = none := by
  rw [Option.eq_none_iff_forall_ne_some]
  rintro range hrange
  exact not_choices_of_range (Numerals.parse?_eq_some_iff.mp hrange) _ choices

/-- Where the braces close, a range is found as it is written. -/
theorem range_of_close? {inner' rest' : List Char} {low high : Int} {width : Option Nat}
    (h : Braces.close? 0 t = some (inner, rest)) (written : t = inner' ++ '}' :: rest')
    (range : NumeralRange inner' low high width) :
    Numerals.parse? inner = some ⟨low, high, width⟩ ∧ rest' = rest := by
  obtain ⟨rfl, rfl⟩ := close?_unique h written (balanced_range range)
  exact ⟨Numerals.parse?_eq_some_iff.mpr range, rfl⟩

/-- Where the braces close, a choice is found as it is written. -/
theorem choices_of_close? {inner' rest' : List Char} {branches : List (List Char)}
    (h : Braces.close? 0 t = some (inner, rest)) (written : t = inner' ++ '}' :: rest')
    (choices : Choices inner' branches) :
    Numerals.parse? inner = none ∧ Braces.split 0 inner = branches ∧ rest' = rest := by
  obtain ⟨rfl, rfl⟩ := close?_unique h written choices.balanced
  exact ⟨parse?_choices choices, ((Braces.choices_iff_split choices.balanced).mp choices).1, rfl⟩

theorem denotes_numeral {range : Numerals} (hclose : Braces.close? 0 t = some (inner, rest))
    (hrange : Numerals.parse? inner = some range) :
    Denotes prev ('{' :: t) s ↔
      Then (fun u => range.spells u = true) (Denotes (some '}') rest) s := by
  have written := Numerals.parse?_eq_some_iff.mp hrange
  constructor
  · intro h
    cases h with
    | @numeral _ _ _ k _ _ _ _ _ _ braces hr between spelled h =>
      obtain ⟨parsed, rfl⟩ := range_of_close? hclose braces hr
      obtain rfl := Option.some.inj (hrange.symm.trans parsed)
      have spells := (Numerals.spelling_iff (Numerals.fits_of_range written between)).mp spelled
      exact ⟨_, _, rfl, Numerals.spells_iff.mpr ⟨k, between, spells⟩, h⟩
    | choice braces choices _ _ _ =>
      cases hrange.symm.trans (choices_of_close? hclose braces choices).1
    | plainBrace plain _ =>
      exact (plain (opensGroup_iff.mpr ⟨_, _, hclose, Or.inl ⟨_, hrange⟩⟩)).elim
    | ordinary plain _ => simp at plain
  · rintro ⟨u, v, rfl, hu, h⟩
    obtain ⟨k, between, spells⟩ := Numerals.spells_iff.mp hu
    have spelled := (Numerals.spelling_iff (Numerals.fits_of_range written between)).mpr spells
    exact .numeral (Braces.close?_eq_some_iff.mp hclose).1 written between spelled h

theorem denotes_choice (hclose : Braces.close? 0 t = some (inner, rest))
    (hrange : Numerals.parse? inner = none) (several : 2 ≤ (Braces.split 0 inner).length) :
    Denotes prev ('{' :: t) s ↔
      Then (fun u => ∃ b ∈ Braces.split 0 inner, Denotes none b u) (Denotes (some '}') rest) s := by
  obtain ⟨written, balanced⟩ := Braces.close?_eq_some_iff.mp hclose
  constructor
  · intro h
    cases h with
    | numeral braces hr _ _ _ => cases hrange.symm.trans (range_of_close? hclose braces hr).1
    | choice braces choices member hu h =>
      obtain ⟨-, rfl, rfl⟩ := choices_of_close? hclose braces choices
      exact ⟨_, _, rfl, ⟨_, member, hu⟩, h⟩
    | plainBrace plain _ =>
      exact (plain (opensGroup_iff.mpr ⟨_, _, hclose, Or.inr several⟩)).elim
    | ordinary plain _ => simp at plain
  · rintro ⟨u, v, rfl, ⟨b, member, hu⟩, h⟩
    exact .choice written ((Braces.choices_iff_split balanced).mpr ⟨rfl, several⟩) member hu h

theorem denotes_plainBrace (plain : ¬ OpensGroup t) :
    Denotes prev ('{' :: t) s ↔ Then (One (· == '{')) (Denotes (some '{') t) s := by
  rw [then_char]
  constructor
  · intro h
    cases h with
    | numeral braces hr _ _ _ => exact (plain ⟨_, _, braces, Or.inl ⟨_, _, _, hr⟩⟩).elim
    | choice braces choices _ _ _ => exact (plain ⟨_, _, braces, Or.inr ⟨_, choices⟩⟩).elim
    | plainBrace _ h => exact ⟨_, rfl, h⟩
    | ordinary plain _ => simp at plain
  · rintro ⟨u, rfl, h⟩
    exact .plainBrace plain h

end EditorConfig.Glob
