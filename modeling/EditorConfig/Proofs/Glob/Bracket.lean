import EditorConfig.Proofs.Glob.Language
import Mathlib.Tactic.Tauto
/-!
# Reading bracket expressions

The reader of bracket expressions finds the closing bracket and the members that the form of a
bracket expression fixes, and the set that it builds holds the characters that the members list.
-/
namespace EditorConfig.Glob

/-- A piece as the reader keeps it: its character and whether it was escaped. -/
def Piece.flagged : Piece → Char × Bool
  | plain c => (c, false)
  | escaped c => (c, true)

namespace Bracket

/-- The pieces that a closing bracket ends: none but the first, and that one only behind the
opening bracket, is a plain closing bracket. -/
structure Closes (first : Bool) (body : List Piece) : Prop where
  nonempty : first = true → body ≠ []
  unescaped : ∀ p ∈ body, p ≠ .plain '\\'
  inside : ∀ p ∈ (if first then body.tail else body), p ≠ .plain ']'

theorem Closes.cons {first : Bool} {p : Piece} {body : List Piece} (h : Closes false body)
    (unescaped : p ≠ .plain '\\') (inside : first = false → p ≠ .plain ']') :
    Closes first (p :: body) := by
  refine ⟨fun _ => List.cons_ne_nil _ _, List.forall_mem_cons.mpr ⟨unescaped, h.unescaped⟩, ?_⟩
  cases first with
  | true => exact h.inside
  | false => exact List.forall_mem_cons.mpr ⟨inside rfl, h.inside⟩

theorem Closes.tail {first : Bool} {p : Piece} {body : List Piece}
    (h : Closes first (p :: body)) : Closes false body := by
  refine ⟨by simp, fun q hq => h.unescaped q (List.mem_cons_of_mem p hq), ?_⟩
  intro q hq
  cases first with
  | true => exact h.inside q hq
  | false => exact h.inside q (List.mem_cons_of_mem p hq)

theorem close?_written {first : Bool} {body : List Piece} (rest : List Char)
    (h : Closes first body) :
    close? first (body.flatMap Piece.text ++ ']' :: rest) =
      some (body.flatMap Piece.text, rest) := by
  induction body generalizing first with
  | nil =>
    cases first with
    | true => exact (h.nonempty rfl rfl).elim
    | false => simp [close?]
  | cons p body ih =>
    have onward := ih h.tail
    have unescaped := h.unescaped p List.mem_cons_self
    cases p with
    | escaped c => simp [Piece.text, close?, onward]
    | plain c =>
      have hc : c ≠ '\\' := fun hc => unescaped (hc ▸ rfl)
      have inside : ¬ (c = ']' ∧ first = false) := by
        rintro ⟨rfl, rfl⟩
        exact h.inside (.plain ']') List.mem_cons_self rfl
      simp [Piece.text, close?, hc, inside, onward]

theorem closes_of_close? {first : Bool} {s body rest : List Char}
    (h : close? first s = some (body, rest)) :
    ∃ pieces, Closes first pieces ∧ body = pieces.flatMap Piece.text ∧
      s = body ++ ']' :: rest := by
  fun_induction close? first s generalizing body rest with
  | case1 => cases h
  | case3 => cases h
  | case2 first c s ih =>
    obtain ⟨⟨b, r⟩, hb, he⟩ := Option.map_eq_some_iff.mp h
    obtain ⟨rfl, rfl⟩ := Prod.mk.inj he
    obtain ⟨pieces, hp, rfl, rfl⟩ := ih hb
    exact ⟨.escaped c :: pieces, hp.cons (by simp) (by simp), rfl, rfl⟩
  | case4 first c s _ _ hc =>
    obtain ⟨rfl, rfl⟩ := Prod.mk.inj (Option.some.inj h)
    obtain ⟨rfl, rfl⟩ := hc
    exact ⟨[], ⟨by simp, by simp, by simp⟩, rfl, rfl⟩
  | case5 first c s hlone hescape hc ih =>
    have hne : c ≠ '\\' := by
      rintro rfl
      cases s with
      | nil => exact hescape rfl rfl
      | cons d s => exact hlone d s rfl rfl
    obtain ⟨⟨b, r⟩, hb, he⟩ := Option.map_eq_some_iff.mp h
    obtain ⟨rfl, rfl⟩ := Prod.mk.inj he
    obtain ⟨pieces, hp, rfl, rfl⟩ := ih hb
    refine ⟨.plain c :: pieces, hp.cons (by simpa using hne) ?_, rfl, rfl⟩
    rintro rfl he
    exact hc ⟨Piece.plain.inj he, rfl⟩

/-! ## Members -/

theorem unescape_written {body : List Piece} (h : ∀ p ∈ body, p ≠ .plain '\\') :
    unescape (body.flatMap Piece.text) = body.map Piece.flagged := by
  induction body with
  | nil => rfl
  | cons p body ih =>
    obtain ⟨hp, hb⟩ := List.forall_mem_cons.mp h
    cases p with
    | escaped c => simp [Piece.text, Piece.flagged, unescape, ih hb]
    | plain c =>
      have hc : c ≠ '\\' := fun hc => hp (hc ▸ rfl)
      simp [Piece.text, Piece.flagged, unescape, hc, ih hb]

theorem mem_written_iff (body : List Piece) {d : Char} (hd : d ≠ '\\') :
    d ∈ body.flatMap Piece.text ↔ ∃ p ∈ body, p.char = d := by
  rw [List.mem_flatMap]
  refine exists_congr fun p => and_congr_right fun _ => ?_
  cases p <;> simp [Piece.text, Piece.char, hd, eq_comm]

theorem members_cons {x : Char × Bool} {s : List (Char × Bool)}
    (h : ∀ high t, s ≠ ('-', false) :: high :: t) : members (x :: s) = (x.1, x.1) :: members s := by
  rw [members]
  rintro high flag t rfl
  exact h (high, flag) t rfl

theorem flagged_eq_dash {p : Piece} (h : p.flagged = ('-', false)) : p = .plain '-' := by
  cases p with
  | plain c => exact congrArg Piece.plain (Prod.mk.inj h).1
  | escaped c => exact (Bool.noConfusion (Prod.mk.inj h).2)

theorem between_self_iff {c d : Char} : (c ≤ d ∧ d ≤ c) ↔ d = c :=
  ⟨fun h => Char.le_antisymm h.2 h.1, fun h => h ▸ ⟨Char.le_refl d, Char.le_refl d⟩⟩

theorem any_members_iff {body : List Piece} {d : Char} :
    (∃ r ∈ members (body.map Piece.flagged), r.1 ≤ d ∧ d ≤ r.2) ↔ Listed d body := by
  fun_induction Listed d body with
  | case1 low high rest ih =>
    have hm : members ((low :: .plain '-' :: high :: rest).map Piece.flagged) =
        (low.char, high.char) :: members (rest.map Piece.flagged) := by
      cases low <;> cases high <;> rfl
    simp only [hm, List.exists_mem_cons_iff, ih]
  | case2 p rest single ih =>
    have hm : members ((p :: rest).map Piece.flagged) =
        (p.char, p.char) :: members (rest.map Piece.flagged) := by
      have plain : ∀ high t, rest.map Piece.flagged ≠ ('-', false) :: high :: t := by
        intro high t h
        obtain ⟨q, more, rfl, hq, hmore⟩ := List.map_eq_cons_iff.mp h
        obtain ⟨r, more, rfl, -, -⟩ := List.map_eq_cons_iff.mp hmore
        exact single r more (flagged_eq_dash hq ▸ rfl)
      rw [List.map_cons, members_cons plain]
      cases p <;> rfl
    simp only [hm, List.exists_mem_cons_iff, ih]
    exact or_congr_left between_self_iff
  | case3 => simp [members]

/-! ## Whole expressions -/

/-- The set that the reader builds from the pieces of a body. -/
def charSet (negated : Bool) (body : List Piece) : CharSet :=
  let ranges := members (body.map Piece.flagged)
  ⟨negated, if negated then ('/', '/') :: ranges else ranges⟩

theorem contains_charSet {negated : Bool} {body : List Piece} {d : Char} :
    (charSet negated body).contains d = true ↔ Chosen negated body d := by
  have listed : ((members (body.map Piece.flagged)).any fun r => r.1 ≤ d && d ≤ r.2) = true ↔
      Listed d body := by
    simp only [List.any_eq_true, Bool.and_eq_true, decide_eq_true_eq, any_members_iff]
  cases negated with
  | false => simpa [charSet, CharSet.contains, Chosen] using listed
  | true =>
    have separator : (decide ('/' ≤ d) && decide (d ≤ '/')) = decide (d = '/') := by
      simp only [← between_self_iff, Bool.decide_and]
    rw [Chosen, if_pos rfl, ← listed]
    simp only [charSet, CharSet.contains, if_true, List.any_cons, separator]
    simp

theorem negation_cases (s : List Char) :
    (∃ mark t, (mark = ['!'] ∨ mark = ['^']) ∧ s = mark ++ t ∧ negation s = (true, t)) ∨
      (s.head? ≠ some '!' ∧ s.head? ≠ some '^' ∧ negation s = (false, s)) := by
  fun_cases negation s with
  | case1 t => exact Or.inl ⟨['!'], t, Or.inl rfl, rfl, rfl⟩
  | case2 t => exact Or.inl ⟨['^'], t, Or.inr rfl, rfl, rfl⟩
  | case3 s bang caret =>
    refine Or.inr ⟨?_, ?_, rfl⟩
    · rw [ne_eq, List.head?_eq_some_iff]
      rintro ⟨t, rfl⟩
      exact bang t rfl
    · rw [ne_eq, List.head?_eq_some_iff]
      rintro ⟨t, rfl⟩
      exact caret t rfl

theorem head?_written {body : List Piece} {c : Char} (h : body ≠ []) (rest : List Char) :
    (body.flatMap Piece.text ++ rest).head? = some c → c = '\\' ∨ body.head? = some (.plain c) := by
  cases body with
  | nil => exact (h rfl).elim
  | cons p body =>
    cases p with
    | escaped d => exact fun he => Or.inl (Option.some.inj he).symm
    | plain d => exact fun he => Or.inr (congrArg (some <| Piece.plain ·) (Option.some.inj he))

theorem negation_of_bracketed {s : List Char} {negated : Bool} {body : List Piece}
    {rest : List Char} (h : Bracketed s negated body rest) :
    negation s = (negated, body.flatMap Piece.text ++ ']' :: rest) := by
  obtain ⟨mark, rfl, ⟨rfl, rfl | rfl⟩ | ⟨rfl, rfl, bang, caret⟩⟩ := h.written
  · rfl
  · rfl
  · rcases negation_cases ([] ++ body.flatMap Piece.text ++ ']' :: rest) with
      ⟨mark, t, hmark, hs, -⟩ | ⟨-, -, hn⟩
    · have first : ∀ c, c ≠ '\\' → body.head? ≠ some (.plain c) → mark ≠ [c] := by
        rintro c hc hb rfl
        rcases head?_written h.nonempty (']' :: rest) (congrArg List.head? hs) with he | he
        · exact hc he
        · exact hb he
      rcases hmark with rfl | rfl
      · exact (first '!' (by decide) bang rfl).elim
      · exact (first '^' (by decide) caret rfl).elim
    · exact hn

theorem read_of_bracketed {s : List Char} {negated : Bool} {body : List Piece} {rest : List Char}
    (h : Bracketed s negated body rest) :
    read s = if ∃ p ∈ body, p.char = '/' then .plain else .set (charSet negated body) rest := by
  have closes : Closes true body := ⟨fun _ => h.nonempty, h.unescaped, h.inside⟩
  have separator := mem_written_iff body (d := '/') (by decide)
  simp only [read, negation_of_bracketed h, close?_written rest closes, List.contains_iff_mem,
    separator, unescape_written h.unescaped, charSet]

theorem exists_bracketed {s : List Char} (h : read s ≠ .unclosed) :
    ∃ negated body rest, Bracketed s negated body rest := by
  have closed : ∃ b r, close? true (negation s).2 = some (b, r) := by
    cases hc : close? true (negation s).2 with
    | none => exact (h (by simp [read, hc])).elim
    | some found => exact ⟨found.1, found.2, rfl⟩
  obtain ⟨b, rest, hc⟩ := closed
  obtain ⟨body, closes, rfl, ht⟩ := closes_of_close? hc
  rcases negation_cases s with ⟨mark, t, hmark, hs, hn⟩ | ⟨bang, caret, hn⟩
  · refine ⟨true, body, rest, ⟨mark, ?_, Or.inl ⟨rfl, hmark⟩⟩, closes.nonempty rfl,
      closes.unescaped, closes.inside⟩
    rw [hs, List.append_assoc, ← ht, hn]
  · rw [hn] at ht
    have first : ∀ c, s.head? ≠ some c → body.head? ≠ some (.plain c) := by
      intro c hs hb
      obtain ⟨more, rfl⟩ := List.head?_eq_some_iff.mp hb
      exact hs (congrArg List.head? ht)
    exact ⟨false, body, rest, ⟨[], ht, Or.inr ⟨rfl, rfl, first _ bang, first _ caret⟩⟩,
      closes.nonempty rfl, closes.unescaped, closes.inside⟩

theorem read_eq_unclosed_iff {s : List Char} :
    read s = .unclosed ↔ ∀ negated body rest, ¬ Bracketed s negated body rest := by
  constructor
  · intro h negated body rest closed
    rw [read_of_bracketed closed] at h
    split at h <;> cases h
  · intro never
    by_contra h
    obtain ⟨negated, body, rest, closed⟩ := exists_bracketed h
    exact never negated body rest closed

/-- A closed expression that lists the separator is read as an ordinary bracket. -/
theorem read_eq_plain_iff {s : List Char} : read s = .plain ↔
    ∃ negated body rest, Bracketed s negated body rest ∧ ∃ p ∈ body, p.char = '/' := by
  constructor
  · intro h
    obtain ⟨negated, body, rest, closed⟩ := exists_bracketed (s := s) (by simp [h])
    rw [read_of_bracketed closed] at h
    split at h
    · next separator => exact ⟨negated, body, rest, closed, separator⟩
    · cases h
  · rintro ⟨negated, body, rest, closed, separator⟩
    rw [read_of_bracketed closed, if_pos separator]

/-- Any other closed expression is read as its set. -/
theorem read_eq_set_iff {s rest : List Char} {set : CharSet} : read s = .set set rest ↔
    ∃ negated body, Bracketed s negated body rest ∧ (∀ p ∈ body, p.char ≠ '/') ∧
      set = charSet negated body := by
  constructor
  · intro h
    obtain ⟨negated, body, rest', closed⟩ := exists_bracketed (s := s) (by simp [h])
    rw [read_of_bracketed closed] at h
    split at h
    · cases h
    · next inside =>
      obtain ⟨rfl, rfl⟩ := Reading.set.inj h
      exact ⟨negated, body, closed, by simpa using inside, rfl⟩
  · rintro ⟨negated, body, closed, inside, rfl⟩
    rw [read_of_bracketed closed, if_neg (by simpa using inside)]

end Bracket

end EditorConfig.Glob
