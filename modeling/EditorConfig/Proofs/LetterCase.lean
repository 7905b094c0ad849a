import EditorConfig.Proofs.Text
import EditorConfig.Text.Lowercase
/-!
# The case of ASCII letters

Whether a letter of ASCII is written large or small does not show in how a text is trimmed, cut,
measured or lower-cased as a whole. Each operation is compared with itself after `asciiLower`, so
that two texts which differ at most in the case of ASCII letters are compared through one third. The
same letters are single bytes of a file, and whether its bytes are a text does not depend on their
case either.
-/
namespace EditorConfig.Text

/-! ## One character -/

/-- The characters that `asciiLower` changes. -/
def capitals : List Char := "ABCDEFGHIJKLMNOPQRSTUVWXYZ".toList

theorem toLower_eq_self {c : Char} (h : c ∉ capitals) : c.toLower = c := by
  have all : ∀ n < 26, Char.ofNat (65 + n) ∈ capitals := by decide
  unfold Char.toLower
  split
  · next upper =>
    have low : 65 ≤ c.toNat := UInt32.le_iff_toNat_le.mp upper.1
    have high : c.toNat ≤ 90 := UInt32.le_iff_toNat_le.mp upper.2
    have there := all (c.toNat - 65) (by omega)
    rw [Nat.add_sub_cancel' low, Char.ofNat_toNat] at there
    exact absurd there h
  · rfl

/-- What is the same for the capital letters and their small ones is the same for all characters. -/
theorem apply_toLower {α : Type} [BEq α] [LawfulBEq α] {f : Char → α}
    (h : capitals.all (fun c => f c.toLower == f c) = true) (c : Char) : f c.toLower = f c := by
  by_cases hc : c ∈ capitals
  · exact beq_iff_eq.mp (List.all_eq_true.mp h c hc)
  · rw [toLower_eq_self hc]

theorem isBlank_toLower (c : Char) : isBlank c.toLower = isBlank c :=
  apply_toLower (by decide) c

theorem isDigit_toLower (c : Char) : c.toLower.isDigit = c.isDigit :=
  apply_toLower (by decide) c

theorem utf8Size_toLower (c : Char) : c.toLower.utf8Size = c.utf8Size :=
  apply_toLower (by decide) c

theorem lowerChar_toLower (c : Char) : lowerChar c.toLower = lowerChar c :=
  apply_toLower (by decide) c

theorem cased_toLower (c : Char) :
    inRanges CaseTable.cased c.toLower = inRanges CaseTable.cased c :=
  apply_toLower (by decide) c

theorem ignorable_toLower (c : Char) :
    inRanges CaseTable.ignorable c.toLower = inRanges CaseTable.ignorable c :=
  apply_toLower (by decide +kernel) c

/-- A character that is no letter is reached from itself only. -/
theorem toLower_eq_iff {c sep : Char} (h : sep.isAlpha = false) : c.toLower = sep ↔ c = sep := by
  have letters : capitals.all (fun a => a.isAlpha && a.toLower.isAlpha) = true := by decide
  by_cases hc : c ∈ capitals
  · obtain ⟨large, small⟩ := Bool.and_eq_true_iff.mp (List.all_eq_true.mp letters c hc)
    exact iff_of_false (fun he => by simp [he, h] at small) (fun he => by simp [he, h] at large)
  · rw [toLower_eq_self hc]

/-! ## Texts -/

theorem asciiLower_append (s t : List Char) : asciiLower (s ++ t) = asciiLower s ++ asciiLower t :=
  List.map_append

theorem asciiLower_reverse (s : List Char) : asciiLower s.reverse = (asciiLower s).reverse :=
  List.map_reverse

/-- A text without letters is reached from itself only. -/
theorem asciiLower_eq_iff {s t : List Char}
    (h : ∀ c ∈ t, c.isAlpha = false) : asciiLower s = t ↔ s = t := by
  induction t generalizing s with
  | nil => exact List.map_eq_nil_iff
  | cons c t ih =>
    rw [List.forall_mem_cons] at h
    cases s with
    | nil => exact iff_of_false nofun nofun
    | cons d s =>
      have step : asciiLower (d :: s) = d.toLower :: asciiLower s := rfl
      rw [step, List.cons_eq_cons, List.cons_eq_cons, toLower_eq_iff h.1, ih h.2]

theorem dropWhile_asciiLower {p : Char → Bool} (h : ∀ c, p c.toLower = p c) (s : List Char) :
    (asciiLower s).dropWhile p = asciiLower (s.dropWhile p) := by
  have same : p ∘ Char.toLower = p := funext h
  rw [asciiLower, List.dropWhile_map, same, asciiLower]

theorem trim_asciiLower (s : List Char) : trim (asciiLower s) = asciiLower (trim s) := by
  simp only [trim, trimEnd_eq_rdropWhile, List.rdropWhile, dropWhile_asciiLower isBlank_toLower,
    ← asciiLower_reverse]

theorem asciiLower_intercalate {sep : Char} (h : sep.toLower = sep) (pieces : List (List Char)) :
    asciiLower ([sep].intercalate pieces) = [sep].intercalate (pieces.map asciiLower) := by
  induction pieces with
  | nil => rfl
  | cons first others ih =>
    cases others with
    | nil => simp
    | cons second others =>
      have mark : asciiLower [sep] = [sep] := congrArg ([·]) h
      rw [List.map_cons, List.map_cons, List.intercalate_cons_cons, List.intercalate_cons_cons,
        asciiLower_append, asciiLower_append, mark, ih, List.map_cons]

theorem lines_asciiLower (s : List Char) : lines (asciiLower s) = (lines s).map asciiLower := by
  have same : ∀ c : Char, c.toLower = '\n' ↔ c = '\n' := fun c => toLower_eq_iff (by decide)
  obtain ⟨joined, nonempty, inside⟩ := cuts_iff.mpr (rfl : lines s = lines s)
  refine cuts_iff.mp ⟨?_, by simpa using nonempty, ?_⟩
  · rw [← asciiLower_intercalate rfl, ← joined]
  · rintro piece hpiece hc
    obtain ⟨old, hold, rfl⟩ := List.mem_map.mp hpiece
    obtain ⟨c, hc, he⟩ := List.mem_map.mp hc
    exact inside old hold ((same c).mp he ▸ hc)

theorem cut?_asciiLower {sep : Char} (h : sep.isAlpha = false) (s : List Char) :
    cut? sep (asciiLower s) = (cut? sep s).map (Prod.map asciiLower asciiLower) := by
  induction s with
  | nil => rfl
  | cons c s ih =>
    have step : asciiLower (c :: s) = c.toLower :: asciiLower s := rfl
    rw [step, cut?, cut?, ih]
    by_cases hc : c = sep
    · rw [if_pos hc, if_pos ((toLower_eq_iff h).mpr hc)]
      rfl
    · rw [if_neg hc, if_neg fun he => hc ((toLower_eq_iff h).mp he)]
      cases cut? sep s <;> rfl

theorem utf8ByteSize_asciiLower (s : List Char) :
    (String.ofList (asciiLower s)).utf8ByteSize = (String.ofList s).utf8ByteSize := by
  induction s with
  | nil => rfl
  | cons c s ih =>
    have step : asciiLower (c :: s) = c.toLower :: asciiLower s := rfl
    rw [step, utf8ByteSize_cons, utf8ByteSize_cons, utf8Size_toLower, ih]

theorem startsCased_asciiLower (s : List Char) : startsCased (asciiLower s) = startsCased s := by
  unfold startsCased
  rw [dropWhile_asciiLower ignorable_toLower]
  cases s.dropWhile (inRanges CaseTable.ignorable) with
  | nil => rfl
  | cons c rest => exact cased_toLower c

theorem lowerFrom_asciiLower (before s : List Char) :
    lowerFrom (asciiLower before) (asciiLower s) = lowerFrom before s := by
  induction s generalizing before with
  | nil => rfl
  | cons c s ih =>
    have step : asciiLower (c :: s) = c.toLower :: asciiLower s := rfl
    have sigma : c.toLower = 'Σ' ↔ c = 'Σ' := toLower_eq_iff (by decide)
    have rest := ih (c :: before)
    rw [step, lowerFrom, lowerFrom, startsCased_asciiLower, startsCased_asciiLower,
      lowerChar_toLower]
    simp only [sigma]
    exact congrArg _ rest

/-- Lower-casing a whole text does not see the case of ASCII letters. -/
theorem lowercase_congr {a b : String} (h : asciiLower a.toList = asciiLower b.toList) :
    lowercase a = lowercase b := by
  rw [lowercase, lowercase, ← lowerFrom_asciiLower [] a.toList, h]
  exact congrArg _ (lowerFrom_asciiLower [] b.toList)

theorem equalIgnoringCase_congr {a b : String} (h : asciiLower a.toList = asciiLower b.toList)
    (c : String) : equalIgnoringCase a c = equalIgnoringCase b c := by
  rw [equalIgnoringCase, equalIgnoringCase, h]

/-! ## Bytes -/

theorem toAsciiLower_low {b : UInt8} (h : b < 128) : b.toAsciiLower < 128 := by
  have all : ∀ n < 128, (UInt8.ofNat n).toAsciiLower < 128 := by decide
  have here := all b.toNat (UInt8.lt_iff_toNat_lt.mp h)
  rwa [UInt8.ofNat_toNat] at here

theorem toAsciiLower_high {b : UInt8} (h : 128 ≤ b) : b.toAsciiLower = b := by
  have all : ∀ n < 128, (UInt8.ofNat (128 + n)).toAsciiLower = UInt8.ofNat (128 + n) := by decide
  have low : 128 ≤ b.toNat := UInt8.le_iff_toNat_le.mp h
  have here := all (b.toNat - 128) (by have := b.toNat_lt; omega)
  rwa [Nat.add_sub_cancel' low, UInt8.ofNat_toNat] at here

/-- A byte that does not stand for a character of ASCII is reached from itself only. -/
theorem toAsciiLower_eq_high {b high : UInt8} (h : 128 ≤ high) :
    b.toAsciiLower = high ↔ b = high := by
  by_cases low : b < 128
  · have below := toAsciiLower_low low
    exact iff_of_false (fun he => UInt8.not_lt.mpr h (he ▸ below))
      (fun he => UInt8.not_lt.mpr h (he ▸ low))
  · rw [toAsciiLower_high (UInt8.not_lt.mp low)]

theorem high_of_mem_utf8EncodeChar {c : Char} (h : 127 < c.toNat) :
    ∀ b ∈ String.utf8EncodeChar c, 128 ≤ b := by
  have wide : ¬ c.val.toNat ≤ 127 := Nat.not_le_of_lt h
  intro b hb
  rw [UInt8.le_iff_toNat_le]
  simp only [String.utf8EncodeChar, if_neg wide] at hb
  split at hb
  · simp only [List.mem_cons, List.not_mem_nil, or_false] at hb
    rcases hb with rfl | rfl <;> simp [UInt8.toNat_ofNat'] <;> omega
  · split at hb
    · simp only [List.mem_cons, List.not_mem_nil, or_false] at hb
      rcases hb with rfl | rfl | rfl <;> simp [UInt8.toNat_ofNat'] <;> omega
    · simp only [List.mem_cons, List.not_mem_nil, or_false] at hb
      rcases hb with rfl | rfl | rfl | rfl <;> simp [UInt8.toNat_ofNat'] <;> omega

/-- What encodes a character encodes one also with its letters in another case. -/
theorem exists_char_of_letters {c : Char} {bytes : List UInt8}
    (h : bytes.map UInt8.toAsciiLower = (String.utf8EncodeChar c).map UInt8.toAsciiLower) :
    ∃ d, bytes = String.utf8EncodeChar d := by
  -- A character of ASCII is a single byte; no byte of any other character is a letter.
  by_cases small : c.toNat ≤ 127
  · have one : String.utf8EncodeChar c = [UInt8.ofNat c.toNat] := if_pos small
    have single : ∀ n < 128, String.utf8EncodeChar (Char.ofNat n) = [UInt8.ofNat n] := by decide
    rw [one, List.map_singleton] at h
    obtain ⟨b, rfl, hb⟩ := List.map_eq_singleton_iff.mp h
    have ascii : UInt8.ofNat c.toNat < 128 := by
      rw [UInt8.lt_iff_toNat_lt, UInt8.toNat_ofNat']
      exact Nat.lt_of_le_of_lt (Nat.mod_le _ _) (Nat.lt_succ_of_le small)
    have low : b < 128 := by
      by_contra high
      have below := toAsciiLower_low ascii
      rw [← hb, toAsciiLower_high (UInt8.not_lt.mp high)] at below
      exact high below
    exact ⟨Char.ofNat b.toNat, by
      rw [single b.toNat (UInt8.lt_iff_toNat_lt.mp low), UInt8.ofNat_toNat]⟩
  · have high := high_of_mem_utf8EncodeChar (Nat.lt_of_not_le small)
    have kept : (String.utf8EncodeChar c).map UInt8.toAsciiLower = String.utf8EncodeChar c :=
      (List.map_congr_left fun b hb => toAsciiLower_high (high b hb)).trans (List.map_id _)
    rw [kept] at h
    have same : bytes.map UInt8.toAsciiLower = bytes.map id := List.map_congr_left fun b hb =>
      ((toAsciiLower_eq_high (high _ (h ▸ List.mem_map_of_mem hb))).mp rfl).symm
    exact ⟨c, by rw [← h, same, List.map_id]⟩

theorem exists_text_of_letters {chars : List Char} {bytes : List UInt8}
    (h : bytes.map UInt8.toAsciiLower =
      (chars.flatMap String.utf8EncodeChar).map UInt8.toAsciiLower) :
    ∃ text : List Char, bytes = text.flatMap String.utf8EncodeChar := by
  induction chars generalizing bytes with
  | nil => exact ⟨[], List.map_eq_nil_iff.mp h⟩
  | cons c chars ih =>
    rw [List.flatMap_cons, List.map_append, List.map_eq_append_iff] at h
    obtain ⟨first, rest, rfl, hfirst, hrest⟩ := h
    obtain ⟨d, rfl⟩ := exists_char_of_letters hfirst
    obtain ⟨text, rfl⟩ := ih hrest
    exact ⟨d :: text, rfl⟩

/-- Whether bytes are a text does not depend on the case of letters. -/
theorem fromUTF8?_eq_none {bytes bytes' : ByteArray} (h : String.fromUTF8? bytes = none)
    (letters : bytes'.data.toList.map UInt8.toAsciiLower =
      bytes.data.toList.map UInt8.toAsciiLower) : String.fromUTF8? bytes' = none := by
  have invalid : ¬ bytes.IsValidUTF8 := fun valid => by simp [String.fromUTF8?, valid] at h
  refine dif_neg fun valid => invalid ?_
  obtain ⟨chars, rfl⟩ := valid
  rw [List.utf8Encode, List.data_toByteArray] at letters
  obtain ⟨text, htext⟩ := exists_text_of_letters letters.symm
  refine ⟨text, ByteArray.ext ?_⟩
  rw [List.utf8Encode, List.data_toByteArray, ← htext]
end EditorConfig.Text
