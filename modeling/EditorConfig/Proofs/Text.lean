import EditorConfig.Text
import Mathlib.Data.List.DropRight
/-!
# Trimming and cutting texts

What the blank characters at the ends of a text, its lines and its first separator are, said of the
text itself, and that the readers of all three find exactly that.
-/
namespace EditorConfig.Text

/-- `t` is `s` without the blank characters at both of its ends. -/
structure Trims (s t : List Char) : Prop where
  cut : ∃ front back, s = front ++ t ++ back ∧ (∀ c ∈ front, isBlank c = true) ∧
    ∀ c ∈ back, isBlank c = true
  starts : ∀ c, t.head? = some c → isBlank c = false
  ends : ∀ c, t.getLast? = some c → isBlank c = false

/-- `pieces` are the lines of `s`: what stands between its line feeds. -/
structure Cuts (s : List Char) (pieces : List (List Char)) : Prop where
  joined : s = ['\n'].intercalate pieces
  nonempty : pieces ≠ []
  inside : ∀ piece ∈ pieces, '\n' ∉ piece

/-- `text` is `s` without the byte order mark that may stand in front of it. -/
def Unmarked (s text : List Char) : Prop :=
  s = '\uFEFF' :: text ∨ (s = text ∧ s.head? ≠ some '\uFEFF')

/-! ## Blank characters -/

theorem trimEnd_eq_rdropWhile (s : List Char) : trimEnd s = s.rdropWhile isBlank := by
  induction s with
  | nil => rfl
  | cons c s ih =>
    rw [List.rdropWhile, List.reverse_cons, List.dropWhile_append, trimEnd, ih, List.rdropWhile]
    cases h : s.reverse.dropWhile isBlank with
    | nil => by_cases hc : isBlank c = true <;> simp [hc]
    | cons d rest =>
      simp only [List.isEmpty_cons, Bool.false_eq_true, if_false, List.reverse_append]
      split
      · next he => simp at he
      · rfl

theorem trimEnd_append {t back : List Char} (blank : ∀ c ∈ back, isBlank c = true)
    (ends : ∀ c, t.getLast? = some c → isBlank c = false) : trimEnd (t ++ back) = t := by
  have kept : t.reverse.dropWhile isBlank = t.reverse := by
    cases h : t.reverse with
    | nil => rfl
    | cons c rest =>
      have last : t.getLast? = some c := by rw [List.getLast?_eq_head?_reverse, h]; rfl
      simp [ends c last]
  rw [trimEnd_eq_rdropWhile, List.rdropWhile, List.reverse_append,
    List.dropWhile_append_of_pos fun c hc => blank c (List.mem_reverse.mp hc), kept,
    List.reverse_reverse]

theorem trims_trim (s : List Char) : Trims s (trim s) := by
  have front := s.takeWhile_append_dropWhile (p := isBlank)
  obtain ⟨back, hback⟩ := List.rdropWhile_prefix isBlank (s.dropWhile isBlank)
  rw [← trimEnd_eq_rdropWhile] at hback
  refine ⟨⟨s.takeWhile isBlank, back, ?_, fun c hc => List.mem_takeWhile_imp hc, ?_⟩, ?_, ?_⟩
  · rw [trim, List.append_assoc, hback, front]
  · intro c hc
    have dropped : back = (s.dropWhile isBlank).rtakeWhile isBlank := by
      have whole := List.rdropWhile_append_rtakeWhile (p := isBlank) (l := s.dropWhile isBlank)
      rw [← trimEnd_eq_rdropWhile] at whole
      exact List.append_cancel_left (hback.trans whole.symm)
    exact List.mem_rtakeWhile_imp (dropped ▸ hc)
  · intro c hc
    -- The first character that is kept is the first one behind the blanks in front.
    have first : (s.dropWhile isBlank).head? = some c := by
      rw [← hback, List.head?_append, show (trimEnd (s.dropWhile isBlank)).head? = some c from hc]
      rfl
    have := List.head?_dropWhile_not isBlank s
    rw [first] at this
    simpa using this
  · intro c hc
    rw [trim, trimEnd_eq_rdropWhile] at hc
    have hne : (s.dropWhile isBlank).rdropWhile isBlank ≠ [] := by
      intro he
      simp [he] at hc
    have last := List.rdropWhile_last_not isBlank _ hne
    rw [List.getLast?_eq_some_getLast hne, Option.some_inj] at hc
    rw [← hc]
    simpa using last

theorem trims_iff {s t : List Char} : Trims s t ↔ trim s = t := by
  constructor
  · rintro ⟨⟨front, back, rfl, hfront, hback⟩, starts, ends⟩
    rw [trim, List.append_assoc, List.dropWhile_append_of_pos hfront]
    cases t with
    | nil =>
      have none : back.dropWhile isBlank = [] := List.dropWhile_eq_nil_iff.mpr hback
      rw [List.nil_append, none]
      rfl
    | cons c t =>
      rw [List.cons_append, List.dropWhile_cons_of_neg (by simp [starts c rfl]),
        ← List.cons_append, trimEnd_append hback ends]
  · rintro rfl
    exact trims_trim s

/-! ## Separators -/

theorem not_mem_of_mem_splitOn {sep : Char} {s piece : List Char} (h : piece ∈ s.splitOn sep) :
    sep ∉ piece := by
  induction s generalizing piece with
  | nil =>
    rw [List.splitOn_nil, List.mem_singleton] at h
    simp [h]
  | cons c s ih =>
    rw [List.splitOn_cons_eq_if_modifyHead] at h
    split at h
    · rcases List.mem_cons.mp h with rfl | h
      · simp
      · exact ih h
    · next hc =>
      obtain ⟨first, others, hs⟩ := List.exists_cons_of_ne_nil (List.splitOn_ne_nil sep s)
      rw [hs, List.modifyHead_cons] at h
      rcases List.mem_cons.mp h with rfl | h
      · have hne : ¬ sep = c := fun he => hc (by simp [← he])
        simpa [hne] using ih (hs ▸ List.mem_cons_self)
      · exact ih (hs ▸ List.mem_cons_of_mem _ h)

theorem mem_intercalate {sep c : Char} {pieces : List (List Char)}
    (h : c ∈ [sep].intercalate pieces) : c = sep ∨ ∃ piece ∈ pieces, c ∈ piece := by
  induction pieces with
  | nil => simp at h
  | cons first others ih =>
    cases others with
    | nil => exact .inr ⟨first, by simp, by simpa using h⟩
    | cons second others =>
      rw [List.intercalate_cons_cons, List.append_assoc, List.mem_append, List.singleton_append,
        List.mem_cons] at h
      rcases h with h | h | h
      · exact .inr ⟨first, List.mem_cons_self, h⟩
      · exact .inl h
      · rcases ih h with h | ⟨piece, hpiece, hc⟩
        · exact .inl h
        · exact .inr ⟨piece, List.mem_cons_of_mem _ hpiece, hc⟩

theorem mem_intercalate_of_mem {sep c : Char} {piece : List Char} {pieces : List (List Char)}
    (h : piece ∈ pieces) (hc : c ∈ piece) : c ∈ [sep].intercalate pieces := by
  induction pieces with
  | nil => cases h
  | cons first others ih =>
    cases others with
    | nil =>
      obtain rfl := List.mem_singleton.mp h
      simpa using hc
    | cons second others =>
      rw [List.intercalate_cons_cons, List.append_assoc, List.mem_append, List.mem_append]
      rcases List.mem_cons.mp h with rfl | h
      · exact .inl hc
      · exact .inr (.inr (ih h))

/-- The first piece stands in front, and nothing or a separator behind it. -/
theorem exists_behind_first (sep : Char) (first : List Char) (others : List (List Char)) :
    ∃ rest, [sep].intercalate (first :: others) = first ++ rest ∧
      (rest = [] ∨ rest.head? = some sep) := by
  cases others with
  | nil => exact ⟨[], by simp, .inl rfl⟩
  | cons second others =>
    refine ⟨sep :: [sep].intercalate (second :: others), ?_, .inr rfl⟩
    rw [List.intercalate_cons_cons, List.append_assoc]
    rfl

theorem head?_intercalate {sep c : Char} {first : List Char} {others : List (List Char)}
    (inside : c ≠ sep) :
    ([sep].intercalate (first :: others)).head? = some c ↔ first.head? = some c := by
  obtain ⟨rest, hrest, rfl | head⟩ := exists_behind_first sep first others
  · rw [hrest, List.append_nil]
  · rw [hrest, List.head?_append, head]
    cases first with
    | nil => simp [inside.symm]
    | cons d first => simp

theorem cuts_iff {s : List Char} {pieces : List (List Char)} :
    Cuts s pieces ↔ lines s = pieces := by
  constructor
  · rintro ⟨rfl, nonempty, inside⟩
    exact List.splitOn_intercalate '\n' inside nonempty
  · rintro rfl
    exact ⟨(List.intercalate_splitOn '\n').symm, List.splitOn_ne_nil '\n' s,
      fun piece h => not_mem_of_mem_splitOn h⟩

theorem length_lines (s : List Char) : (lines s).length = s.count '\n' + 1 := by
  induction s with
  | nil => rfl
  | cons c s ih =>
    rw [lines, List.splitOn_cons_eq_if_modifyHead]
    split
    · next feed =>
      obtain rfl : c = '\n' := by simpa using feed
      rw [List.length_cons, ← lines, ih, List.count_cons_self]
    · next other =>
      have distinct : c ≠ '\n' := by simpa using other
      rw [List.length_modifyHead, ← lines, ih, List.count_cons_of_ne distinct]

theorem cut?_eq_some_iff {sep : Char} {s before after : List Char} :
    cut? sep s = some (before, after) ↔ s = before ++ sep :: after ∧ sep ∉ before := by
  induction s generalizing before with
  | nil => simp [cut?]
  | cons c s ih =>
    rw [cut?]
    split
    · next hc =>
      cases before with
      | nil => simp [hc]
      | cons d before =>
        have distinct : ¬ (c = d ∧ ¬ sep = d) := fun h => h.2 (hc ▸ h.1)
        simp only [Option.some_inj, Prod.mk.injEq, List.cons_append, List.cons.injEq,
          List.mem_cons, not_or]
        grind
    · next hc =>
      simp only [Option.map_eq_some_iff, Prod.exists, Prod.mk.injEq]
      constructor
      · rintro ⟨front, rest, h, rfl, rfl⟩
        obtain ⟨rfl, hfront⟩ := ih.mp h
        exact ⟨rfl, by simp [hfront, Ne.symm hc]⟩
      · rintro ⟨hs, hbefore⟩
        cases before with
        | nil => exact (hc (List.cons.inj hs).1).elim
        | cons d before =>
          obtain ⟨rfl, htail⟩ := List.cons.inj hs
          rw [List.mem_cons, not_or] at hbefore
          exact ⟨before, after, ih.mpr ⟨htail, hbefore.2⟩, rfl, rfl⟩

theorem cut?_eq_none_iff {sep : Char} {s : List Char} : cut? sep s = none ↔ sep ∉ s := by
  induction s with
  | nil => simp [cut?]
  | cons c s ih =>
    by_cases hc : c = sep
    · simp [cut?, hc]
    · simp [cut?, hc, ih, Ne.symm hc]

theorem unmarked_iff {s text : List Char} : Unmarked s text ↔ dropMark s = text := by
  unfold Unmarked dropMark
  split
  · next rest => simp
  · next unmarked =>
    constructor
    · rintro (rfl | ⟨h, -⟩)
      · exact (unmarked _ rfl).elim
      · exact h
    · rintro rfl
      refine Or.inr ⟨rfl, fun h => ?_⟩
      obtain ⟨rest, hs⟩ := List.head?_eq_some_iff.mp h
      exact unmarked rest hs

theorem Unmarked.append_feed {s text : List Char} (h : Unmarked s text) (below : List Char) :
    Unmarked (s ++ '\n' :: below) (text ++ '\n' :: below) := by
  rcases h with rfl | ⟨rfl, head⟩
  · exact .inl rfl
  · refine .inr ⟨rfl, ?_⟩
    cases s with
    | nil => exact nofun
    | cons c s => simpa using head

theorem Unmarked.count_feed {s text : List Char} (h : Unmarked s text) :
    s.count '\n' = text.count '\n' := by
  rcases h with rfl | ⟨rfl, -⟩
  · exact List.count_cons_of_ne (by decide)
  · rfl

/-! ## Length -/

theorem utf8ByteSize_cons (c : Char) (s : List Char) :
    (String.ofList (c :: s)).utf8ByteSize = c.utf8Size + (String.ofList s).utf8ByteSize := by
  have whole : String.ofList (c :: s) = String.singleton c ++ String.ofList s := by
    apply String.toList_inj.mp
    simp
  rw [whole, String.utf8ByteSize_append, String.utf8ByteSize_singleton]

end EditorConfig.Text
