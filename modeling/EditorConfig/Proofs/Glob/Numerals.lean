import EditorConfig.Proofs.Glob.Language
import Mathlib.Tactic.Tauto
/-!
# Reading and spelling numerals

Digits have one value, and equally many digits with one value are the same digits. From that come
the two facts about ranges that a matcher needs: the texts that a range spells are the spellings of
the integers between its bounds, and all their beginnings are kept while a text is read.
-/
namespace EditorConfig.Glob

/-! ## Decimal digits -/

theorem isDigit_iff {c : Char} : c.isDigit = true ↔ 48 ≤ c.toNat ∧ c.toNat ≤ 57 := by
  simp only [Char.isDigit, Bool.and_eq_true, decide_eq_true_eq, ge_iff_le, UInt32.le_iff_toNat_le]
  exact Iff.rfl

theorem digitsValue_cons (c : Char) (digits : List Char) :
    digitsValue (c :: digits) = 10 ^ digits.length * (c.toNat - 48) + digitsValue digits := by
  rw [digitsValue, Nat.ofDigitChars_cons, Nat.ofDigitChars_eq_ofDigitChars_zero, digitsValue]
  simp

theorem digitsValue_lt {digits : List Char} (h : ∀ c ∈ digits, c.isDigit = true) :
    digitsValue digits < 10 ^ digits.length := by
  induction digits with
  | nil => simp [digitsValue]
  | cons c digits ih =>
    obtain ⟨hc, hs⟩ := List.forall_mem_cons.mp h
    have hd : c.toNat - 48 ≤ 9 := by
      have := (isDigit_iff.mp hc).2
      omega
    have hm := Nat.mul_le_mul_left (10 ^ digits.length) hd
    have hv := ih hs
    rw [digitsValue_cons, List.length_cons, Nat.pow_succ]
    omega

theorem eq_of_digitsValue {ds es : List Char} (hd : ∀ c ∈ ds, c.isDigit = true)
    (he : ∀ c ∈ es, c.isDigit = true) (length : ds.length = es.length)
    (value : digitsValue ds = digitsValue es) : ds = es := by
  induction ds generalizing es with
  | nil => exact (List.length_eq_zero_iff.mp length.symm).symm
  | cons c ds ih =>
    cases es with
    | nil => cases length
    | cons e es =>
      obtain ⟨hc, hds⟩ := List.forall_mem_cons.mp hd
      obtain ⟨he, hes⟩ := List.forall_mem_cons.mp he
      have hlen : ds.length = es.length := Nat.succ.inj length
      have hlt := digitsValue_lt hds
      have hlt' := digitsValue_lt hes
      rw [digitsValue_cons, digitsValue_cons, ← hlen] at value
      rw [← hlen] at hlt'
      have hquot := congrArg (· / 10 ^ ds.length) value
      have hrem := congrArg (· % 10 ^ ds.length) value
      simp only [Nat.mul_add_div (Nat.pow_pos (by decide : 0 < 10)), Nat.div_eq_of_lt hlt,
        Nat.div_eq_of_lt hlt', Nat.add_zero] at hquot
      simp only [Nat.mul_add_mod, Nat.mod_eq_of_lt hlt, Nat.mod_eq_of_lt hlt'] at hrem
      have hce : c.toNat = e.toNat := by
        have := isDigit_iff.mp hc
        have := isDigit_iff.mp he
        omega
      rw [ih hds hes hlen hrem, Char.toNat_inj.mp hce]

theorem le_digitsValue {c : Char} {digits : List Char} (hc : c.isDigit = true) (h : c ≠ '0') :
    10 ^ digits.length ≤ digitsValue (c :: digits) := by
  have hd : 1 ≤ c.toNat - 48 := by
    have hne : c.toNat ≠ 48 := fun he => h (Char.toNat_inj.mp he)
    have := (isDigit_iff.mp hc).1
    omega
  have := Nat.mul_le_mul_left (10 ^ digits.length) hd
  rw [digitsValue_cons]
  omega

theorem digits_toDigits (n : Nat) : Digits (Nat.toDigits 10 n) :=
  ⟨Nat.toDigits_ne_nil, fun _ h => Nat.isDigit_of_mem_toDigits (by decide) (by decide) h⟩

@[simp] theorem digitsValue_toDigits (n : Nat) : digitsValue (Nat.toDigits 10 n) = n :=
  Nat.ofDigitChars_ten_toDigits

theorem length_toDigits_le {n k : Nat} (hk : 0 < k) (h : n < 10 ^ k) :
    (Nat.toDigits 10 n).length ≤ k :=
  (Nat.length_toDigits_le_iff (by decide) hk).mpr h

theorem length_toDigits_mono {m n : Nat} (h : m ≤ n) :
    (Nat.toDigits 10 m).length ≤ (Nat.toDigits 10 n).length := by
  have hpos : 0 < (Nat.toDigits 10 n).length := Nat.length_toDigits_pos
  have hlt := (Nat.length_toDigits_le_iff (n := n) (b := 10) (by decide) hpos).mp (Nat.le_refl _)
  exact length_toDigits_le hpos (Nat.lt_of_le_of_lt h hlt)

/-- Without a leading zero the digits of a number are those that division gives. -/
theorem eq_toDigits {digits : List Char} (h : Digits digits)
    (leading : digits.head? = some '0' → digits = ['0']) :
    digits = Nat.toDigits 10 (digitsValue digits) := by
  refine eq_of_digitsValue h.2 (digits_toDigits _).2 ?_ (digitsValue_toDigits _).symm
  apply Nat.le_antisymm
  · cases digits with
    | nil => exact (h.1 rfl).elim
    | cons c ds =>
      by_cases hc : c = '0'
      · rw [leading (congrArg some hc)]
        exact Nat.length_toDigits_pos
      · by_contra hlt
        have hpos : 0 < (Nat.toDigits 10 (digitsValue (c :: ds))).length :=
          Nat.length_toDigits_pos
        have hle : (Nat.toDigits 10 (digitsValue (c :: ds))).length ≤ ds.length := by
          rw [List.length_cons] at hlt
          omega
        have hval : 10 ^ ds.length ≤ digitsValue (c :: ds) :=
          le_digitsValue (h.2 c List.mem_cons_self) hc
        have := (Nat.length_toDigits_le_iff (by decide) (by omega)).mp hle
        omega
  · exact length_toDigits_le (List.length_pos_of_ne_nil h.1) (digitsValue_lt h.2)

theorem toDigits_leading {n : Nat} (h : (Nat.toDigits 10 n).head? = some '0') :
    Nat.toDigits 10 n = ['0'] := by
  obtain ⟨ds, hds⟩ := List.head?_eq_some_iff.mp h
  cases ds with
  | nil => exact hds
  | cons d ds =>
    have hdigits := (digits_toDigits n).2
    rw [hds] at hdigits
    have hlt := digitsValue_lt (List.forall_mem_cons.mp hdigits).2
    have hval : digitsValue (d :: ds) = n := by
      have := digitsValue_toDigits n
      rw [hds, digitsValue_cons] at this
      simpa using this
    have hle := length_toDigits_le (Nat.succ_pos _) (hval ▸ hlt)
    simp only [hds, List.length_cons] at hle
    omega

/-! ## Numerals -/

theorem Digits.head_ne {digits : List Char} (h : Digits digits) {c : Char}
    (hc : c.isDigit = false) {s : List Char} : digits ≠ c :: s := by
  rintro rfl
  have := h.2 c List.mem_cons_self
  rw [hc] at this
  cases this

namespace Numerals

theorem guard_iff {digits : List Char} :
    (digits.isEmpty || !digits.all Char.isDigit) = false ↔ Digits digits := by
  simp [Digits, List.all_eq_true]

theorem bound?_minus_iff {digits : List Char} {k : Int} {w : Nat} :
    bound? ('-' :: digits) = some (k, w) ↔
      Digits digits ∧ digits.length = w ∧ k = -(digitsValue digits : Int) := by
  rw [← guard_iff]
  cases h : digits.isEmpty || !digits.all Char.isDigit <;>
    simp [bound?, h, digitsValue, and_comm, eq_comm]

theorem bound?_plus_iff {digits : List Char} {k : Int} {w : Nat} :
    bound? ('+' :: digits) = some (k, w) ↔
      Digits digits ∧ digits.length = w ∧ k = digitsValue digits := by
  rw [← guard_iff]
  cases h : digits.isEmpty || !digits.all Char.isDigit <;>
    simp [bound?, h, digitsValue, and_comm, eq_comm]

theorem bound?_unsigned_iff {digits : List Char} (minus : digits.head? ≠ some '-')
    (plus : digits.head? ≠ some '+') {k : Int} {w : Nat} :
    bound? digits = some (k, w) ↔
      Digits digits ∧ digits.length = w ∧ k = digitsValue digits := by
  rw [← guard_iff]
  unfold bound?
  split
  next negative ds hs =>
  split at hs
  · exact (minus rfl).elim
  · exact (plus rfl).elim
  · obtain ⟨rfl, rfl⟩ := Prod.mk.inj hs
    cases digits.isEmpty || !digits.all Char.isDigit <;>
      simp [digitsValue, and_comm, eq_comm]

theorem bound?_eq_some_iff {s : List Char} {k : Int} {w : Nat} :
    bound? s = some (k, w) ↔ Numeral s k w := by
  constructor
  · intro h
    by_cases minus : s.head? = some '-'
    · obtain ⟨digits, rfl⟩ := List.head?_eq_some_iff.mp minus
      obtain ⟨hd, hw, hk⟩ := bound?_minus_iff.mp h
      exact ⟨['-'], digits, rfl, hd, hw, Or.inl ⟨rfl, hk⟩⟩
    by_cases plus : s.head? = some '+'
    · obtain ⟨digits, rfl⟩ := List.head?_eq_some_iff.mp plus
      obtain ⟨hd, hw, hk⟩ := bound?_plus_iff.mp h
      exact ⟨['+'], digits, rfl, hd, hw, Or.inr ⟨Or.inr rfl, hk⟩⟩
    obtain ⟨hd, hw, hk⟩ := (bound?_unsigned_iff minus plus).mp h
    exact ⟨[], s, rfl, hd, hw, Or.inr ⟨Or.inl rfl, hk⟩⟩
  · rintro ⟨sign, digits, rfl, hd, hw, ⟨rfl, hk⟩ | ⟨rfl | rfl, hk⟩⟩
    · exact bound?_minus_iff.mpr ⟨hd, hw, hk⟩
    · have unsigned : ∀ c : Char, c.isDigit = false → digits.head? ≠ some c := by
        intro c hc h
        obtain ⟨t, ht⟩ := List.head?_eq_some_iff.mp h
        exact hd.head_ne hc ht
      exact (bound?_unsigned_iff (unsigned '-' rfl) (unsigned '+' rfl)).mpr ⟨hd, hw, hk⟩
    · exact bound?_plus_iff.mpr ⟨hd, hw, hk⟩

theorem mem_numeral {s : List Char} {k : Int} {w : Nat} (h : Numeral s k w) {c : Char}
    (hc : c ∈ s) : c = '-' ∨ c = '+' ∨ c.isDigit = true := by
  obtain ⟨sign, digits, rfl, hd, -, hs⟩ := h
  rcases List.mem_append.mp hc with hc | hc
  · rcases hs with ⟨rfl, -⟩ | ⟨rfl | rfl, -⟩
    · exact Or.inl (List.mem_singleton.mp hc)
    · cases hc
    · exact Or.inr (Or.inl (List.mem_singleton.mp hc))
  · exact Or.inr (Or.inr (hd.2 c hc))

theorem splitDots_written {left : List Char} (h : '.' ∉ left) (right : List Char) :
    splitDots (left ++ '.' :: '.' :: right) = some (left, right) := by
  induction left with
  | nil => rfl
  | cons c left ih =>
    obtain ⟨hc, hs⟩ := List.ne_and_not_mem_of_not_mem_cons h
    rw [List.cons_append, splitDots, ih hs]
    · rfl
    · rintro _ rfl
      exact (hc rfl).elim

theorem written_of_splitDots {s left right : List Char} (h : splitDots s = some (left, right)) :
    s = left ++ '.' :: '.' :: right := by
  fun_induction splitDots s generalizing left right with
  | case1 => cases h
  | case2 rest =>
    obtain ⟨rfl, rfl⟩ := Prod.mk.inj (Option.some.inj h)
    rfl
  | case3 c s _ ih =>
    obtain ⟨⟨l, r⟩, hl, he⟩ := Option.map_eq_some_iff.mp h
    obtain ⟨rfl, rfl⟩ := Prod.mk.inj he
    rw [ih hl]
    rfl

/-- Two numerals with two dots between them are a range if both fit. -/
theorem parse?_written {left right : List Char} {low high : Int} {m n : Nat}
    (hl : Numeral left low m) (hr : Numeral right high n) :
    parse? (left ++ '.' :: '.' :: right) =
      if InRange low ∧ InRange high then some ⟨low, high, if m = n then some m else none⟩
      else none := by
  have plain : '.' ∉ left := by
    intro h
    rcases mem_numeral hl h with h | h | h <;> exact absurd h (by decide)
  simp only [parse?, splitDots_written plain, bound?_eq_some_iff.mpr hl,
    bound?_eq_some_iff.mpr hr]

theorem parse?_eq_some_iff {inner : List Char} {r : Numerals} :
    parse? inner = some r ↔ NumeralRange inner r.low r.high r.width := by
  constructor
  · intro h
    unfold parse? at h
    split at h
    · cases h
    next left right hd =>
    split at h
    · next low m high n hl hr =>
      split at h
      · next bounds =>
        obtain rfl := Option.some.inj h
        exact ⟨left, right, m, n, written_of_splitDots hd, bound?_eq_some_iff.mp hl,
          bound?_eq_some_iff.mp hr, bounds.1, bounds.2, rfl⟩
      · cases h
    · cases h
  · rintro ⟨left, right, m, n, rfl, hl, hr, low, high, width⟩
    have bounds : InRange r.low ∧ InRange r.high := ⟨low, high⟩
    rw [parse?_written hl hr, if_pos bounds, ← width]

/-! ## Spellings -/

/-- The common width of the bounds leaves room for every integer of the range. -/
def Fits (r : Numerals) (k : Int) : Prop :=
  ∀ w, r.width = some w → 0 < w ∧ k.natAbs < 10 ^ w

/-- The digits of `k`, padded to the width of the range. -/
def padded (r : Numerals) (k : Int) : List Char :=
  match r.width with
  | some w => (Nat.toDigits 10 k.natAbs).leftpad w '0'
  | none => Nat.toDigits 10 k.natAbs

theorem padded_of_width {r : Numerals} {w : Nat} (h : r.width = some w) (k : Int) :
    r.padded k = (Nat.toDigits 10 k.natAbs).leftpad w '0' := by
  simp [padded, h]

theorem padded_of_no_width {r : Numerals} (h : r.width = none) (k : Int) :
    r.padded k = Nat.toDigits 10 k.natAbs := by
  simp [padded, h]

theorem spell_eq (r : Numerals) (k : Int) :
    r.spell k = (if k < 0 then ['-'] else []) ++ r.padded k := by
  obtain ⟨low, high, width⟩ := r
  cases width <;> by_cases hk : k < 0 <;> simp [spell, padded, hk]

theorem digits_padded (r : Numerals) (k : Int) : Digits (r.padded k) := by
  obtain ⟨hne, hd⟩ := digits_toDigits k.natAbs
  unfold padded
  split
  · refine ⟨by simp [List.leftpad, hne], fun c hc => ?_⟩
    rcases List.mem_append.mp hc with hc | hc
    · rw [List.eq_of_mem_replicate hc]
      rfl
    · exact hd c hc
  · exact ⟨hne, hd⟩

theorem digitsValue_padded (r : Numerals) (k : Int) : digitsValue (r.padded k) = k.natAbs := by
  unfold padded
  split
  · simp [List.leftpad, digitsValue, Nat.ofDigitChars_append]
  · exact digitsValue_toDigits _

theorem spelling_iff {r : Numerals} {k : Int} (fits : r.Fits k) {s : List Char} :
    Spelling r.width k s ↔ s = r.spell k := by
  have hp := digits_padded r k
  rw [spell_eq]
  constructor
  · rintro ⟨digits, rfl, hd, hv, hwidth⟩
    congr 1
    cases hw : r.width with
    | none =>
      rw [hw] at hwidth
      rw [padded_of_no_width hw, ← hv]
      exact eq_toDigits hd hwidth
    | some w =>
      rw [hw] at hwidth
      obtain ⟨hpos, hlt⟩ := fits w hw
      have hlen := length_toDigits_le hpos hlt
      refine eq_of_digitsValue hd.2 hp.2 ?_ (hv.trans (digitsValue_padded r k).symm)
      rw [hwidth, padded_of_width hw, List.length_leftpad, Nat.max_eq_left hlen]
  · rintro rfl
    refine ⟨r.padded k, rfl, hp, digitsValue_padded r k, ?_⟩
    cases hw : r.width with
    | none =>
      rw [padded_of_no_width hw]
      exact toDigits_leading
    | some w =>
      obtain ⟨hpos, hlt⟩ := fits w hw
      have := length_toDigits_le hpos hlt
      rw [padded_of_width hw, List.length_leftpad, Nat.max_eq_left this]

theorem numeral_spell (r : Numerals) (k : Int) :
    Numeral (r.spell k) k (r.padded k).length := by
  refine ⟨_, r.padded k, spell_eq r k, digits_padded r k, rfl, ?_⟩
  rw [digitsValue_padded]
  by_cases hk : k < 0
  · exact Or.inl ⟨if_pos hk, by omega⟩
  · exact Or.inr ⟨Or.inl (if_neg hk), by omega⟩

theorem spells_iff {r : Numerals} {s : List Char} :
    r.spells s = true ↔ ∃ k, (r.least ≤ k ∧ k ≤ r.greatest) ∧ s = r.spell k := by
  constructor
  · intro h
    unfold spells at h
    split at h
    · next k _ _ =>
      obtain ⟨low, high, hs⟩ := of_decide_eq_true h
      exact ⟨k, ⟨low, high⟩, hs⟩
    · cases h
  · rintro ⟨k, ⟨low, high⟩, rfl⟩
    simp [spells, bound?_eq_some_iff.mpr (numeral_spell r k), low, high]

@[simp] theorem least_ascending (r : Numerals) : r.ascending.least = r.least := by
  simp only [ascending, least, greatest]
  omega

@[simp] theorem greatest_ascending (r : Numerals) : r.ascending.greatest = r.greatest := by
  simp only [ascending, least, greatest]
  omega

@[simp] theorem count_ascending (r : Numerals) : r.ascending.count = r.count := by
  simp only [ascending, count, least, greatest]
  omega

/-- The order of the bounds has no say in what is spelled. -/
theorem spells_ascending (r : Numerals) (s : List Char) : r.ascending.spells s = r.spells s := by
  rw [Bool.eq_iff_iff, spells_iff, spells_iff, least_ascending, greatest_ascending]
  exact Iff.rfl

theorem fits_of_range {inner : List Char} {r : Numerals}
    (h : NumeralRange inner r.low r.high r.width) {k : Int}
    (between : r.least ≤ k ∧ k ≤ r.greatest) : r.Fits k := by
  have bound : ∀ {s : List Char} {n : Int} {w : Nat}, Numeral s n w →
      0 < w ∧ n.natAbs < 10 ^ w := by
    rintro s n w ⟨sign, digits, -, hd, rfl, hs⟩
    have hlt := digitsValue_lt hd.2
    refine ⟨List.length_pos_of_ne_nil hd.1, ?_⟩
    rcases hs with ⟨-, rfl⟩ | ⟨-, rfl⟩ <;> simpa using hlt
  obtain ⟨left, right, m, n, -, hl, hr, -, -, hwidth⟩ := h
  intro w hw
  have hmn : m = n ∧ m = w := by
    rw [hw] at hwidth
    split at hwidth
    · next hmn => exact ⟨hmn, (Option.some.inj hwidth).symm⟩
    · cases hwidth
  obtain ⟨rfl, rfl⟩ := hmn
  obtain ⟨hpos, hlow⟩ := bound hl
  have hhigh := (bound hr).2
  refine ⟨hpos, ?_⟩
  unfold least greatest at between
  omega

/-! ## Beginnings of spellings -/

theorem length_padded_mono (r : Numerals) {j k : Int} (h : j.natAbs ≤ k.natAbs) :
    (r.padded j).length ≤ (r.padded k).length := by
  have := length_toDigits_mono h
  unfold padded
  split
  · simp only [List.length_leftpad]
    omega
  · exact this

theorem length_spell_le {r : Numerals} {k : Int} (low : r.least ≤ k) (high : k ≤ r.greatest) :
    (r.spell k).length ≤ r.longest := by
  unfold longest
  simp only [spell_eq, List.length_append]
  by_cases hk : k < 0
  · have hneg : r.least < 0 := by omega
    have := length_padded_mono r (j := k) (k := r.least) (by omega)
    simp only [if_pos hk, if_pos hneg]
    omega
  · have hpos : ¬ r.greatest < 0 := by omega
    have := length_padded_mono r (j := k) (k := r.greatest) (by omega)
    simp only [if_neg hk, if_neg hpos]
    omega

theorem viable_of_spells {r : Numerals} {u v : List Char} (h : r.spells (u ++ v) = true) :
    r.viable u = true := by
  obtain ⟨k, ⟨low, high⟩, hs⟩ := spells_iff.mp h
  have hlen := length_spell_le low high
  rw [← hs, List.length_append] at hlen
  have hdigits : ∀ {ds : List Char}, ds <+: r.padded k → ds.all Char.isDigit = true :=
    fun h => List.all_eq_true.mpr fun c hc => (digits_padded r k).2 c (h.subset hc)
  have hprefix : u <+: (if k < 0 then ['-'] else []) ++ r.padded k := ⟨v, hs.trans (spell_eq r k)⟩
  have hlong : u.length ≤ r.longest := by omega
  by_cases hk : k < 0
  · rw [if_pos hk, List.singleton_append, List.prefix_cons_iff] at hprefix
    rcases hprefix with rfl | ⟨ds, rfl, hds⟩
    · simp [viable]
    · rw [viable, hdigits hds, Bool.and_true]
      exact decide_eq_true hlong
  · rw [if_neg hk, List.nil_append] at hprefix
    unfold viable
    split
    · obtain ⟨t, ht⟩ := hprefix
      exact ((digits_padded r k).head_ne (c := '-') rfl ht.symm).elim
    · rw [hdigits hprefix, Bool.and_true]
      exact decide_eq_true hlong

end Numerals

end EditorConfig.Glob
