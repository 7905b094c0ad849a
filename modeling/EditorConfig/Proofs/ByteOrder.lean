import Mathlib.Data.String.Basic
/-!
# Texts in the order of their bytes

Texts are compared character by character. UTF-8 is made so that comparing their bytes gives the
same order: of two characters, the greater one is longer with a greater first byte, or has as many
bytes and is greater in the first that differs.
-/
namespace EditorConfig.Text

/-- The bytes of a text. -/
def utf8 (s : String) : List UInt8 := s.toUTF8.data.toList

theorem utf8_eq (s : String) : utf8 s = s.toList.flatMap String.utf8EncodeChar := by
  obtain ⟨chars, rfl⟩ : ∃ chars, s = String.ofList chars := ⟨s.toList, s.ofList_toList.symm⟩
  rw [utf8, String.toUTF8, String.toByteArray_ofList, List.utf8Encode, List.toList_data_toByteArray,
    String.toList_ofList]

/-- The smaller character is smaller by its bytes, whatever stands behind. -/
theorem utf8EncodeChar_lt {c d : Char} (h : c < d) (s t : List UInt8) :
    String.utf8EncodeChar c ++ s < String.utf8EncodeChar d ++ t := by
  have below : c.val.toNat < d.val.toNat := UInt32.lt_iff_toNat_lt.mp h
  have bound : d.val.toNat < 1114112 := d.valid.elim (fun h => h.trans (by decide)) And.right
  unfold String.utf8EncodeChar
  generalize c.val.toNat = v at below
  generalize d.val.toNat = w at below bound
  simp only
  split_ifs
  all_goals simp only [List.cons_append, List.nil_append, List.cons_lt_cons_iff,
    UInt8.lt_iff_toNat_lt, ← UInt8.toNat_inj, UInt8.toNat_ofNat']
  any_goals omega
  -- Both have four bytes, of which the first ones may be the same.
  have parts (n : ℕ) : v / n ≤ w / n := Nat.div_le_div_right below.le
  rcases (parts 262144).lt_or_eq with first | first
  · exact .inl (by omega)
  refine .inr ⟨by omega, ?_⟩
  rcases (parts 4096).lt_or_eq with second | second
  · exact .inl (by omega)
  refine .inr ⟨by omega, ?_⟩
  omega

/-- By induction on the characters that both begin with. -/
theorem flatMap_utf8EncodeChar_lt {s t : List Char} (h : s < t) :
    s.flatMap String.utf8EncodeChar < t.flatMap String.utf8EncodeChar := by
  induction h with
  | @nil d t =>
    obtain ⟨b, rest, bytes⟩ := List.exists_cons_of_ne_nil (l := String.utf8EncodeChar d) (by simp)
    simp [bytes]
  | rel h => exact utf8EncodeChar_lt h _ _
  | cons _ ih =>
    rw [List.flatMap_cons, List.flatMap_cons]
    exact List.append_left_lt ih

theorem utf8_lt_iff {s t : String} : utf8 s < utf8 t ↔ s < t := by
  have mono {s t : String} (h : s < t) : utf8 s < utf8 t := by
    rw [utf8_eq, utf8_eq]
    exact flatMap_utf8EncodeChar_lt (String.lt_iff_toList_lt.mp h)
  refine ⟨fun h => ?_, mono⟩
  rcases lt_trichotomy s t with less | rfl | more
  · exact less
  · exact absurd h (List.lt_irrefl _)
  · exact absurd h (List.lt_asymm (mono more))

end EditorConfig.Text
