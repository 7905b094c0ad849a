import EditorConfig.Proofs.LetterCase
/-!
# What lower-casing keeps

Lower-casing puts a form of its own in the place of every character. No form brings in a character
by which lines are trimmed and cut, so a text that has none of them at its ends, or none at all, has
none after it. The length in bytes grows by at most one byte for each of three characters, and no
other form is longer than its character.
-/
namespace EditorConfig.Text

/-- A character by which lines are trimmed or cut. -/
def Delimits (c : Char) : Prop := isBlank c = true ∨ c = '='

instance (c : Char) : Decidable (Delimits c) :=
  inferInstanceAs (Decidable (isBlank c = true ∨ c = '='))

/-- The characters whose lower-case form takes more bytes. -/
def growing : List Char := ['\u0130', '\u023A', '\u023E']

/-- The number of characters of a text whose lower-case form takes more bytes. -/
def growth (s : List Char) : Nat := s.countP (growing.contains ·)

/-- What may stand in the place of a character. -/
structure FormOf (c : Char) (form : List Char) : Prop where
  nonempty : form ≠ []
  delimits : ∀ d ∈ form, Delimits d → d = c
  size : (String.ofList form).utf8ByteSize ≤ c.utf8Size + growth [c]

/-- `t` has for every character of `s` a form in its place. -/
inductive Formed : List Char → List Char → Prop
  | nil : Formed [] []
  | cons {c : Char} {form s t : List Char} (here : FormOf c form) (rest : Formed s t) :
      Formed (c :: s) (form ++ t)

/-! ## The table -/

/-- The codes of the characters by which lines are trimmed or cut. -/
def delimiters : List (Nat × Nat) :=
  [(0x09, 0x0D), (0x20, 0x20), (0x3D, 0x3D), (0x85, 0x85), (0xA0, 0xA0), (0x1680, 0x1680),
    (0x2000, 0x200A), (0x2028, 0x2029), (0x202F, 0x202F), (0x205F, 0x205F), (0x3000, 0x3000)]

theorem inRanges_of_delimits {c : Char} (h : Delimits c) : inRanges delimiters c = true := by
  have code : ∀ a b : Char, a ≤ b ↔ a.toNat ≤ b.toNat := fun _ _ => UInt32.le_iff_toNat_le
  have inside : ∀ r ∈ delimiters, r.1 ≤ c.toNat ∧ c.toNat ≤ r.2 → inRanges delimiters c = true :=
    fun r hr hc => List.any_eq_true.mpr ⟨r, hr, by simpa using hc⟩
  rcases h with h | rfl
  · simp only [isBlank, Bool.or_eq_true, Bool.and_eq_true, decide_eq_true_eq, beq_iff_eq,
      code] at h
    rcases h with (((((((((h | rfl) | rfl) | rfl) | rfl) | h) | rfl) | rfl) | rfl) | rfl) | rfl
    · exact inside (0x09, 0x0D) (by decide) h
    iterate 4 · decide
    · exact inside (0x2000, 0x200A) (by decide) h
    iterate 5 · decide
  · decide

/-- The number of bytes of the character with a given code. -/
def width (n : Nat) : Nat :=
  if n ≤ 0x7F then 1 else if n ≤ 0x7FF then 2 else if n ≤ 0xFFFF then 3 else 4

theorem utf8Size_eq_width (c : Char) : c.utf8Size = width c.toNat := by
  unfold Char.utf8Size width
  simp only [UInt32.le_iff_toNat_le]
  rfl

theorem width_mono {m n : Nat} (h : m ≤ n) : width m ≤ width n := by
  unfold width
  grind

theorem toNat_ofNat (n : Nat) : (Char.ofNat n).toNat = n ∨ (Char.ofNat n).toNat = 0 := by
  by_cases valid : n.isValidChar
  · rw [Char.ofNat, dif_pos valid]
    exact .inl rfl
  · rw [Char.ofNat, dif_neg valid]
    exact .inr rfl

theorem shifts_clear : ∀ r ∈ CaseTable.shifts, ∀ d ∈ delimiters,
    (d.2 : Int) < r.first + r.offset ∨ r.last + r.offset < (d.1 : Int) := by
  decide +kernel

theorem shifts_width : ∀ r ∈ CaseTable.shifts,
    width (r.last + r.offset).toNat ≤
      width r.first + if r.first = r.last then growth [Char.ofNat r.first] else 0 := by
  decide +kernel

/-! ## One character -/

theorem utf8ByteSize_singleton (c : Char) : (String.ofList [c]).utf8ByteSize = c.utf8Size := by
  rw [utf8ByteSize_cons]
  rfl

theorem formOf_shift {r : CaseShift} {c : Char} (hr : r ∈ CaseTable.shifts)
    (covers : r.covers c.toNat = true) : FormOf c [Char.ofNat (c.toNat + r.offset).toNat] := by
  simp only [CaseShift.covers, Bool.and_eq_true, decide_eq_true_eq] at covers
  obtain ⟨⟨first, last⟩, -⟩ := covers
  have code := toNat_ofNat (c.toNat + r.offset).toNat
  refine ⟨by simp, ?_, ?_⟩
  · intro d hd delimits
    obtain rfl := List.mem_singleton.mp hd
    obtain ⟨range, hrange, inside⟩ := List.any_eq_true.mp (inRanges_of_delimits delimits)
    simp only [Bool.and_eq_true, decide_eq_true_eq] at inside
    have positive : ∀ d ∈ delimiters, 0 < d.1 := by decide
    have := positive range hrange
    have := shifts_clear r hr range hrange
    omega
  · have size := shifts_width r hr
    have moved : width (Char.ofNat (c.toNat + r.offset).toNat).toNat ≤
        width (r.last + r.offset).toNat := width_mono (by omega)
    have started : width r.first ≤ width c.toNat := width_mono first
    rw [utf8ByteSize_singleton, utf8Size_eq_width, utf8Size_eq_width]
    split at size
    · next single =>
      have same : Char.ofNat r.first = c := by
        rw [show r.first = c.toNat by omega, Char.ofNat_toNat]
      rw [same] at size
      omega
    · omega

theorem formOf_self (c : Char) : FormOf c [c] :=
  ⟨by simp, fun _ hd _ => List.mem_singleton.mp hd, by
    rw [utf8ByteSize_singleton]
    exact Nat.le_add_right ..⟩

/-- A form without a character by which lines are trimmed or cut. -/
theorem FormOf.of_clear {c : Char} {form : List Char} (nonempty : form ≠ [])
    (clear : form.all (fun d => !decide (Delimits d)) = true)
    (size : (String.ofList form).utf8ByteSize ≤ c.utf8Size + growth [c]) : FormOf c form := by
  refine ⟨nonempty, fun d hd delimits => ?_, size⟩
  have undelimited := List.all_eq_true.mp clear d hd
  simp [delimits] at undelimited

theorem formOf_toLower (c : Char) : FormOf c [c.toLower] := by
  have letters : capitals.all (fun a => !decide (Delimits a.toLower)) = true := by decide
  refine ⟨by simp, ?_, ?_⟩
  · intro d hd delimits
    obtain rfl := List.mem_singleton.mp hd
    refine toLower_eq_self fun capital => ?_
    have undelimited := List.all_eq_true.mp letters c capital
    simp [delimits] at undelimited
  · rw [utf8ByteSize_singleton, utf8Size_toLower]
    exact Nat.le_add_right ..

theorem formOf_lowerChar (c : Char) : FormOf c (lowerChar c) := by
  unfold lowerChar
  split
  · exact formOf_toLower c
  · split
    · next dotted => exact dotted ▸ .of_clear (by decide) (by decide) (by decide)
    · split
      · next r hr =>
        have covers : r.covers c.toNat = true := by simpa using List.find?_some hr
        exact formOf_shift (List.mem_of_find?_eq_some hr) covers
      · exact formOf_self c

/-- The two forms of a sigma do not differ in what is kept. -/
theorem formOf_sigma (final : Bool) : FormOf 'Σ' (if final then ['ς'] else ['σ']) := by
  cases final <;> exact .of_clear (by decide) (by decide) (by decide)

/-! ## Whole texts -/

theorem formed_lowerFrom (before s : List Char) : Formed s (lowerFrom before s) := by
  induction s generalizing before with
  | nil => exact .nil
  | cons c s ih =>
    have here : FormOf c (if c = 'Σ' then
        if startsCased before && !startsCased s then ['ς'] else ['σ'] else lowerChar c) := by
      split
      · next sigma => exact sigma ▸ formOf_sigma _
      · exact formOf_lowerChar c
    exact .cons here (ih (c :: before))

theorem formed_lowercase (s : String) : Formed s.toList (lowercase s).toList := by
  rw [lowercase, String.toList_ofList]
  exact formed_lowerFrom [] s.toList

namespace Formed
variable {s t : List Char} {c : Char}

theorem eq_nil_iff (h : Formed s t) : t = [] ↔ s = [] := by
  cases h with
  | nil => exact Iff.rfl
  | cons here rest => simp [here.nonempty]

theorem mem (h : Formed s t) (hc : c ∈ t) (delimits : Delimits c) : c ∈ s := by
  induction h with
  | nil => exact hc
  | cons here rest ih =>
    rcases List.mem_append.mp hc with hc | hc
    · exact here.delimits c hc delimits ▸ List.mem_cons_self
    · exact List.mem_cons_of_mem _ (ih hc)

theorem head? (h : Formed s t) (hc : t.head? = some c) (delimits : Delimits c) :
    s.head? = some c := by
  cases h with
  | nil => exact hc
  | cons here rest =>
    rw [List.head?_append_of_ne_nil _ here.nonempty] at hc
    exact congrArg some (here.delimits c (List.mem_of_mem_head? hc) delimits).symm

theorem getLast? (h : Formed s t) (hc : t.getLast? = some c) (delimits : Delimits c) :
    s.getLast? = some c := by
  induction h with
  | nil => exact hc
  | @cons a form s t here rest ih =>
    by_cases last : t = []
    · rw [last, List.append_nil] at hc
      obtain rfl := here.delimits c (List.mem_of_getLast? hc) delimits
      rw [rest.eq_nil_iff.mp last]
      rfl
    · rw [List.getLast?_append_of_ne_nil _ last] at hc
      rw [List.getLast?_cons, ih hc]
      rfl

theorem utf8ByteSize_le (h : Formed s t) :
    (String.ofList t).utf8ByteSize ≤ (String.ofList s).utf8ByteSize + growth s := by
  induction h with
  | nil => exact Nat.le_refl 0
  | @cons a form s t here rest ih =>
    have more : growth (a :: s) = growth [a] + growth s := by
      rw [growth, growth, growth, ← List.countP_append, List.singleton_append]
    have size := here.size
    rw [String.ofList_append, String.utf8ByteSize_append, utf8ByteSize_cons, more]
    omega

end Formed

/-- Every growing character takes two bytes. -/
theorem growth_le (s : List Char) : 2 * growth s ≤ (String.ofList s).utf8ByteSize := by
  induction s with
  | nil => exact Nat.le_refl 0
  | cons c s ih =>
    have two : growing.all (·.utf8Size == 2) = true := by decide
    rw [utf8ByteSize_cons, growth, List.countP_cons, ← growth]
    split
    · next hc =>
      have size : c.utf8Size = 2 :=
        beq_iff_eq.mp (List.all_eq_true.mp two c (List.contains_iff_mem.mp hc))
      omega
    · omega

theorem utf8ByteSize_lowercase_le (s : String) :
    (lowercase s).utf8ByteSize ≤ s.utf8ByteSize + growth s.toList := by
  simpa using (formed_lowercase s).utf8ByteSize_le

theorem lowercase_ne_empty {s : String} (h : s ≠ "") : lowercase s ≠ "" := by
  intro he
  have nothing : (lowercase s).toList = [] := by rw [he]; rfl
  exact h (String.toList_inj.mp ((formed_lowercase s).eq_nil_iff.mp nothing))

/-- A text without blank characters at its ends has none there when it is lower-cased. -/
theorem trims_lowercase {s : String} (h : Trims s.toList s.toList) :
    Trims (lowercase s).toList (lowercase s).toList := by
  have formed := formed_lowercase s
  refine ⟨⟨[], [], by simp, nofun, nofun⟩, ?_, ?_⟩
  · intro c hc
    by_contra blank
    rw [Bool.not_eq_false] at blank
    exact absurd (h.starts c (formed.head? hc (.inl blank))) (by simp [blank])
  · intro c hc
    by_contra blank
    rw [Bool.not_eq_false] at blank
    exact absurd (h.ends c (formed.getLast? hc (.inl blank))) (by simp [blank])

end EditorConfig.Text
