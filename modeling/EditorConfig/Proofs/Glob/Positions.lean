import EditorConfig.Proofs.Glob.Braces
import Mathlib.Order.Bounds.Defs
/-!
# Braces by position

The braces of a pattern text can also be read by index, with a count of the braces that are open.
Cutting out a piece fails unless it lies inside of the text, and so does lowering a count of zero.
Reading by index finds what is found without: nothing fails, the closing brace stands at the first
position that balances the unescaped braces, and the parts between the commas are branches.
-/
namespace EditorConfig.Glob

/-- No backslash is left at the end that would escape what is written behind the text. -/
def Whole : List Char → Prop
  | [] => True
  | '\\' :: [] => False
  | '\\' :: _ :: s => Whole s
  | _ :: s => Whole s

/-- The piece of a text from one index up to another. -/
def slice? (s : List Char) (i j : Nat) : Option (List Char) :=
  if i ≤ j ∧ j ≤ s.length then some ((s.take j).drop i) else none

namespace Braces

/-- The number of unescaped braces that a text opens less the number of those that it closes. -/
def balance : List Char → Int
  | [] => 0
  | '\\' :: _ :: s => balance s
  | '{' :: s => balance s + 1
  | '}' :: s => balance s - 1
  | _ :: s => balance s

/-- The count of open braces behind the character at `i`, counted from `start`. -/
def level (chars : List Char) (start i : Nat) : Int := balance ((chars.take (i + 1)).drop start)

/-- A later position at which the braces are balanced, counted from `start`. -/
structure Balances (chars : List Char) (start i : Nat) : Prop where
  later : start < i
  inside : i < chars.length
  level_eq : level chars start i = 0

/-- Looks from `i` on for the index of the brace that leaves no brace open, `depth` being open. -/
def closing? (chars : List Char) (depth i : Nat) : Option (Option Nat) :=
  if h : i < chars.length then
    match chars[i], depth with
    | '\\', depth => closing? chars depth (i + 2)
    | '{', depth => closing? chars (depth + 1) (i + 1)
    | '}', 0 => none
    | '}', 1 => some (some i)
    | '}', depth + 2 => closing? chars (depth + 1) (i + 1)
    | _, depth => closing? chars depth (i + 1)
  else some none
termination_by chars.length - i

/-- Lowers a count. -/
def lower? : Nat → Option Nat
  | 0 => none
  | n + 1 => some n

/-- Lowers a count that stays at zero when it gets there. -/
def lowerToZero (n : Nat) : Option Nat := some (n - 1)

/-- Splits at the commas outside inner braces, `depth` of which are open. The current part begins
at `start`, and the text has been read up to `i`. -/
def splitFrom? (lower : Nat → Option Nat) (inner : List Char) (depth start i : Nat) :
    Option (List (List Char)) :=
  if h : i < inner.length then
    match inner[i] with
    | '\\' => splitFrom? lower inner depth start (i + 2)
    | '{' => splitFrom? lower inner (depth + 1) start (i + 1)
    | '}' => (lower depth).bind fun depth => splitFrom? lower inner depth start (i + 1)
    | c =>
      if c = ',' ∧ depth = 0 then
        (slice? inner start i).bind fun part =>
          (splitFrom? lower inner depth (i + 1) (i + 1)).map (part :: ·)
      else splitFrom? lower inner depth start (i + 1)
  else (slice? inner (min start inner.length) inner.length).map ([·])
termination_by inner.length - i

/-- The braces of a part are balanced, no escape is open at its end, and its commas are escaped or
inside of braces. -/
structure Separate (part : List Char) : Prop where
  whole : Whole part
  balanced : balance part = 0
  nested : ∀ i, 0 ≤ balance (part.take i)
  inside : ∀ i, part[i]? = some ',' → Whole (part.take i) → balance (part.take i) ≠ 0

variable {chars inner s t u : List Char} {c : Char} {depth start i : Nat}

/-! ## The balance of a text -/

theorem ne_backslash (last : c = '\\' → s = [] → False)
    (escaping : ∀ d t, c = '\\' → s = d :: t → False) : c ≠ '\\' := by
  intro h
  cases s with
  | nil => exact last h rfl
  | cons d t => exact escaping d t h rfl

theorem balance_plain (escape : c ≠ '\\') (opening : c ≠ '{') (closing : c ≠ '}') :
    balance (c :: s) = balance s := by
  rw [balance]
  all_goals simp_all

theorem whole_plain (escape : c ≠ '\\') : Whole (c :: s) ↔ Whole s := by
  rw [Whole]
  all_goals simp_all

theorem whole_append (h : Whole s) (t : List Char) : Whole (s ++ t) ↔ Whole t := by
  fun_induction Whole s with
  | case1 => rfl
  | case2 => exact h.elim
  | case3 c s ih => exact ih h
  | case4 c s lone escape ih =>
    have plain := ne_backslash lone escape
    rw [List.cons_append, whole_plain plain]
    exact ih h

theorem balance_append (h : Whole s) (t : List Char) :
    balance (s ++ t) = balance s + balance t := by
  fun_induction Whole s with
  | case1 => simp [balance]
  | case2 => exact h.elim
  | case3 c s ih => exact ih h
  | case4 c s lone escape ih =>
    have onward := ih h
    have plain := ne_backslash lone escape
    rw [List.cons_append]
    by_cases opening : c = '{'
    · subst opening
      rw [balance, balance, onward]
      omega
    · by_cases closing : c = '}'
      · subst closing
        rw [balance, balance, onward]
        omega
      · rw [balance_plain plain opening closing, balance_plain plain opening closing, onward]

theorem whole_of_balanced (h : Balanced s) : Whole s := by
  induction h with
  | nil => trivial
  | plain escape _ _ _ ih => exact (whole_plain escape).mpr ih
  | escaped _ ih => exact ih
  | group _ _ iha ihb => exact (whole_append iha _).mpr ihb

theorem balance_of_balanced (h : Balanced s) : balance s = 0 := by
  induction h with
  | nil => rfl
  | plain escape opening closing _ ih => rw [balance_plain escape opening closing, ih]
  | escaped _ ih => exact ih
  | group ha _ iha ihb =>
    rw [List.cons_append, balance, balance_append (whole_of_balanced ha), iha, balance, ihb]
    rfl

/-- No beginning of a balanced text closes more braces than it opens. -/
theorem balance_take_nonneg (h : Balanced s) (i : Nat) : 0 ≤ balance (s.take i) := by
  induction h generalizing i with
  | nil => simp [balance]
  | plain escape opening closing _ ih =>
    cases i with
    | zero => exact Int.le_refl 0
    | succ i =>
      rw [List.take_succ_cons, balance_plain escape opening closing]
      exact ih i
  | escaped _ ih =>
    match i with
    | 0 => exact Int.le_refl 0
    | 1 => exact Int.le_refl 0
    | i + 2 => exact ih i
  | @group a b ha _ iha ihb =>
    cases i with
    | zero => exact Int.le_refl 0
    | succ i =>
      rw [List.cons_append, List.take_succ_cons, balance, List.take_append]
      by_cases inside : i ≤ a.length
      · have := iha i
        simpa [Nat.sub_eq_zero_of_le inside] using Int.add_nonneg this Int.one_nonneg
      · obtain ⟨k, hk⟩ : ∃ k, i - a.length = k + 1 := ⟨i - a.length - 1, by omega⟩
        have := ihb k
        rw [List.take_of_length_le (by omega), balance_append (whole_of_balanced ha),
          balance_of_balanced ha, hk, List.take_succ_cons, balance]
        omega

/-- A comma of a branch that is not escaped stands inside of braces. -/
theorem balance_comma (h : Branch s) (comma : s[i]? = some ',') (here : Whole (s.take i)) :
    balance (s.take i) ≠ 0 := by
  induction h generalizing i with
  | nil => simp at comma
  | plain escape opening closing other _ ih =>
    cases i with
    | zero => exact (other (by simpa using comma)).elim
    | succ i =>
      rw [List.take_succ_cons] at here ⊢
      rw [balance_plain escape opening closing]
      exact ih comma ((whole_plain escape).mp here)
  | escaped _ ih =>
    match i with
    | 0 => simp at comma
    | 1 => exact here.elim
    | i + 2 => exact ih comma here
  | @group a b ha _ ih =>
    cases i with
    | zero => simp at comma
    | succ i =>
      rw [List.cons_append] at comma here ⊢
      rw [List.take_succ_cons, List.take_append] at here ⊢
      rw [balance]
      by_cases inside : i ≤ a.length
      · have := balance_take_nonneg ha i
        simp only [Nat.sub_eq_zero_of_le inside, List.take_zero, List.append_nil]
        omega
      · obtain ⟨k, rfl⟩ : ∃ k, i = a.length + (k + 1) := ⟨i - a.length - 1, by omega⟩
        have behind : b[k]? = some ',' := by
          rw [List.getElem?_cons_succ, List.getElem?_append_right (by omega)] at comma
          simpa using comma
        rw [List.take_of_length_le (by omega), Nat.add_sub_cancel_left, List.take_succ_cons]
          at here ⊢
        rw [whole_plain (by decide), whole_append (whole_of_balanced ha),
          whole_plain (by decide)] at here
        have := ih behind here
        rw [balance_append (whole_of_balanced ha), balance_of_balanced ha, balance]
        omega

theorem Separate.of_branch (h : Branch s) : Separate s where
  whole := whole_of_balanced h.balanced
  balanced := balance_of_balanced h.balanced
  nested := balance_take_nonneg h.balanced
  inside _ := balance_comma h

/-! ## Reading by index -/

theorem exists_at (h : s.drop i = c :: t) :
    ∃ here : i < s.length, s[i] = c ∧ s.drop (i + 1) = t := by
  have here : i < s.length := by
    by_contra beyond
    rw [List.drop_eq_nil_of_le (Nat.le_of_not_lt beyond)] at h
    cases h
  rw [List.drop_eq_getElem_cons here] at h
  obtain ⟨first, rest⟩ := List.cons.inj h
  exact ⟨here, first, rest⟩

theorem closing?_end (beyond : chars.length ≤ i) : closing? chars depth i = some none := by
  rw [closing?, dif_neg (Nat.not_lt_of_le beyond)]

/-- What is in front of a piece that is cut off comes before its end. -/
theorem map_behind (found : Option (List Char × List Char)) (front : List Char) (i : Nat) :
    (found.map fun cut => i + front.length + cut.1.length) =
      (found.map fun (piece, rest) => (front ++ piece, rest)).map fun cut => i + cut.1.length := by
  rw [Option.map_map]
  congr 1
  funext cut
  simp only [Function.comp, List.length_append]
  omega

/-- Behind an opening brace the count is never lowered at zero, and looking by index finds the brace
that closes. -/
theorem closing?_eq (chars : List Char) (depth i : Nat) : closing? chars (depth + 1) i =
    some ((close? depth (chars.drop i)).map fun cut => i + cut.1.length) := by
  generalize hs : chars.drop i = s
  fun_induction close? depth s generalizing i with
  | case1 depth => rw [closing?_end (List.drop_eq_nil_iff.mp hs), Option.map_none]
  | case2 depth c s ih =>
    obtain ⟨here, first, behind⟩ := exists_at hs
    obtain ⟨-, -, further⟩ := exists_at behind
    rw [closing?, dif_pos here]
    simp only [first, ih (i + 2) further]
    exact congrArg some (map_behind _ ['\\', c] i)
  | case3 depth =>
    obtain ⟨here, first, behind⟩ := exists_at hs
    have last : chars.length ≤ i + 1 := List.drop_eq_nil_iff.mp behind
    rw [closing?, dif_pos here]
    simp only [first]
    exact closing?_end (Nat.le_succ_of_le last)
  | case4 depth s ih =>
    obtain ⟨here, first, behind⟩ := exists_at hs
    rw [closing?, dif_pos here]
    simp only [first, ih (i + 1) behind]
    exact congrArg some (map_behind _ ['{'] i)
  | case5 s =>
    obtain ⟨here, first, -⟩ := exists_at hs
    rw [closing?, dif_pos here]
    simp only [first]
    rfl
  | case6 depth s ih =>
    obtain ⟨here, first, behind⟩ := exists_at hs
    rw [closing?, dif_pos here]
    simp only [first, ih (i + 1) behind]
    exact congrArg some (map_behind _ ['}'] i)
  | case7 depth c s lone escape opening closing ih =>
    have plain := ne_backslash escape lone
    obtain ⟨here, first, behind⟩ := exists_at hs
    rw [closing?, dif_pos here]
    split
    · next h => exact (plain (first.symm.trans h)).elim
    · next h => exact (opening (first.symm.trans h)).elim
    · next h _ => exact (closing (first.symm.trans h)).elim
    · next h _ => exact (closing (first.symm.trans h)).elim
    · next h _ => exact (closing (first.symm.trans h)).elim
    · rw [ih (i + 1) behind]
      exact congrArg some (map_behind _ [c] i)

theorem slice?_eq (s : List Char) {i j : Nat} (upward : i ≤ j) (inside : j ≤ s.length) :
    slice? s i j = some ((s.take j).drop i) :=
  if_pos ⟨upward, inside⟩

theorem slice_behind (front : List Char) {rest : List Char} (h : inner.drop i = front ++ rest)
    (upward : start ≤ i) (here : i ≤ inner.length) :
    (inner.take i).drop start ++ front = (inner.take (i + front.length)).drop start := by
  rw [List.take_add, h, List.take_left, List.drop_append_of_le_length]
  rw [List.length_take]
  omega

theorem splitFrom?_end {lower : Nat → Option Nat} (beyond : inner.length ≤ i) :
    splitFrom? lower inner depth start i = some [inner.drop start] := by
  rw [splitFrom?, dif_neg (Nat.not_lt_of_le beyond),
    slice?_eq inner (Nat.min_le_right start _) (Nat.le_refl _), List.take_length]
  rcases Nat.le_total start inner.length with within | past
  · rw [Nat.min_eq_left within]
    rfl
  · rw [Nat.min_eq_right past, List.drop_length, List.drop_eq_nil_of_le past]
    rfl

/-- Splitting by index cuts out pieces of the text only. The count is lowered at zero nowhere if no
brace closes more than was opened. -/
theorem splitFrom?_eq {lower : Nat → Option Nat} (inner : List Char) (depth : Nat) {start i : Nat}
    (down : ∀ n, lower (n + 1) = some n)
    (bottom : lower 0 = some 0 ∨ ∀ k, 0 ≤ depth + balance ((inner.drop i).take k))
    (upward : start ≤ i) : splitFrom? lower inner depth start i =
      some (onFirst ((inner.take i).drop start) (split depth (inner.drop i))) := by
  generalize hs : inner.drop i = s at bottom ⊢
  fun_induction split depth s generalizing i start with
  | case1 depth =>
    have beyond := List.drop_eq_nil_iff.mp hs
    rw [splitFrom?_end beyond, List.take_of_length_le beyond]
    simp [onFirst]
  | case2 depth c s ih =>
    obtain ⟨here, first, behind⟩ := exists_at hs
    obtain ⟨-, -, further⟩ := exists_at behind
    rw [splitFrom?, dif_pos here]
    simp only [first]
    rw [ih (Nat.le_add_right_of_le upward) further (bottom.imp_right fun h k => h (k + 2)),
      onFirst_onFirst, slice_behind ['\\', c] hs upward (Nat.le_of_lt here)]
    rfl
  | case3 depth s ih =>
    obtain ⟨here, first, behind⟩ := exists_at hs
    have above : lower 0 = some 0 ∨ ∀ k, 0 ≤ ((depth + 1 : Nat) : Int) + balance (s.take k) := by
      refine bottom.imp_right fun h k => ?_
      have := h (k + 1)
      rw [List.take_succ_cons, balance] at this
      omega
    rw [splitFrom?, dif_pos here]
    simp only [first]
    rw [ih (Nat.le_succ_of_le upward) behind above, onFirst_onFirst,
      slice_behind ['{'] hs upward (Nat.le_of_lt here)]
    rfl
  | case4 depth s ih =>
    obtain ⟨here, first, behind⟩ := exists_at hs
    have lowered : lower depth = some (depth - 1) := by
      cases depth with
      | succ depth => exact down depth
      | zero =>
        rcases bottom with stays | h
        · exact stays
        · exact absurd (h 1) (by simp [balance])
    have below : lower 0 = some 0 ∨ ∀ k, 0 ≤ ((depth - 1 : Nat) : Int) + balance (s.take k) := by
      refine bottom.imp_right fun h k => ?_
      have := h (k + 1)
      rw [List.take_succ_cons, balance] at this
      omega
    rw [splitFrom?, dif_pos here]
    simp only [first, lowered, Option.bind_some]
    rw [ih (Nat.le_succ_of_le upward) behind below, onFirst_onFirst,
      slice_behind ['}'] hs upward (Nat.le_of_lt here)]
    rfl
  | case5 depth c s escape opening closing comma ih =>
    obtain ⟨here, first, behind⟩ := exists_at hs
    obtain ⟨rfl, rfl⟩ := comma
    have onward : lower 0 = some 0 ∨ ∀ k, 0 ≤ ((0 : Nat) : Int) + balance (s.take k) := by
      refine bottom.imp_right fun h k => ?_
      simpa [balance] using h (k + 1)
    have cut : splitFrom? lower inner 0 start i = (slice? inner start i).bind fun part =>
        (splitFrom? lower inner 0 (i + 1) (i + 1)).map (part :: ·) := by
      rw [splitFrom?, dif_pos here]
      simp [first]
    rw [cut, slice?_eq inner upward (Nat.le_of_lt here), ih (Nat.le_refl _) behind onward,
      List.drop_eq_nil_of_le (List.length_take_le _ _), onFirst_nil (split_ne_nil 0 s)]
    simp [onFirst]
  | case6 depth c s lone opening closing other ih =>
    obtain ⟨here, first, behind⟩ := exists_at hs
    rw [splitFrom?, dif_pos here]
    split
    · next h =>
      -- A backslash at the end escapes nothing, and reading ends behind it.
      obtain rfl : c = '\\' := first.symm.trans h
      obtain rfl : s = [] := by
        cases s with
        | nil => rfl
        | cons d s => exact (lone d s rfl rfl).elim
      have last : inner.length ≤ i + 1 := List.drop_eq_nil_iff.mp behind
      rw [splitFrom?_end (Nat.le_succ_of_le last), onFirst_onFirst,
        slice_behind ['\\'] hs upward (Nat.le_of_lt here),
        List.take_of_length_le (by simpa using last)]
      simp [split, onFirst]
    · next h => exact (opening (first.symm.trans h)).elim
    · next h => exact (closing (first.symm.trans h)).elim
    · next backslash _ _ =>
      have escape : c ≠ '\\' := fun he => backslash (first.trans he)
      have onward : lower 0 = some 0 ∨ ∀ k, 0 ≤ (depth : Int) + balance (s.take k) := by
        refine bottom.imp_right fun h k => ?_
        have := h (k + 1)
        rwa [List.take_succ_cons, balance_plain escape opening closing] at this
      rw [first, if_neg other, ih (Nat.le_succ_of_le upward) behind onward, onFirst_onFirst,
        slice_behind [c] hs upward (Nat.le_of_lt here)]
      rfl

theorem splitFrom?_whole {lower : Nat → Option Nat} (inner : List Char)
    (down : ∀ n, lower (n + 1) = some n)
    (bottom : lower 0 = some 0 ∨ ∀ k, 0 ≤ balance (inner.take k)) :
    splitFrom? lower inner 0 0 0 = some (split 0 inner) := by
  have nested : lower 0 = some 0 ∨
      ∀ k, 0 ≤ ((0 : Nat) : Int) + balance ((inner.drop 0).take k) := by
    simpa using bottom
  rw [splitFrom?_eq inner 0 down nested (Nat.le_refl 0)]
  exact congrArg some (onFirst_nil (split_ne_nil 0 inner))

/-- A balanced text is cut into branches, and only commas are lost. -/
theorem split_of_balanced (h : Balanced inner) :
    [','].intercalate (split 0 inner) = inner ∧ ∀ part ∈ split 0 inner, Branch part := by
  obtain ⟨branches, several, rfl, branch⟩ := exists_branches h
  rw [split_intercalate several branch]
  exact ⟨rfl, branch⟩

/-! ## Levels -/

theorem drop_of_opening (opening : chars[start]? = some '{') :
    chars.drop start = '{' :: chars.drop (start + 1) := by
  obtain ⟨here, first⟩ := List.getElem?_eq_some_iff.mp opening
  rw [List.drop_eq_getElem_cons here, first]

theorem level_eq (opening : chars[start]? = some '{') (behind : start ≤ i) :
    level chars start i = balance ((chars.drop (start + 1)).take (i - start)) + 1 := by
  rw [level, List.drop_take, drop_of_opening opening, Nat.succ_sub behind, List.take_succ_cons,
    balance]

/-- Without a closing brace no beginning of the text closes more braces than are open. -/
theorem balance_of_close?_none (h : close? depth s = none) (k : Nat) :
    0 ≤ depth + balance (s.take k) := by
  fun_induction close? depth s generalizing k with
  | case1 depth => simp [balance]
  | case2 depth c s ih =>
    rcases k with _ | _ | k
    · simp [balance]
    · simp [balance]
    · exact ih (Option.map_eq_none_iff.mp h) k
  | case3 depth => cases k <;> simp [balance]
  | case4 depth s ih =>
    cases k with
    | zero => simp [balance]
    | succ k =>
      have := ih (Option.map_eq_none_iff.mp h) k
      rw [List.take_succ_cons, balance]
      omega
  | case5 s => cases h
  | case6 depth s ih =>
    cases k with
    | zero => simp [balance]; omega
    | succ k =>
      have := ih (Option.map_eq_none_iff.mp h) k
      rw [List.take_succ_cons, balance]
      omega
  | case7 depth c s lone escape opening closing ih =>
    have plain := ne_backslash escape lone
    cases k with
    | zero => simp [balance]
    | succ k =>
      rw [List.take_succ_cons, balance_plain plain opening closing]
      exact ih (Option.map_eq_none_iff.mp h) k

end Braces

/-! ## The closing brace and the parts -/

open Braces

variable {chars inner rest : List Char} {c : Char} {start i : Nat}

theorem level_pos_of_none (opening : chars[start]? = some '{')
    (h : close? 0 (chars.drop (start + 1)) = none) (behind : start ≤ i) :
    0 < level chars start i := by
  have := balance_of_close?_none h (i - start)
  rw [level_eq opening behind]
  omega

theorem level_pos_inside (opening : chars[start]? = some '{') (balanced : Balanced inner)
    (cut : chars.drop (start + 1) = inner ++ '}' :: rest) (behind : start ≤ i)
    (inside : i < start + 1 + inner.length) : 0 < level chars start i := by
  have := balance_take_nonneg balanced (i - start)
  rw [level_eq opening behind, cut, List.take_append_of_le_length (by omega)]
  omega

theorem level_close (opening : chars[start]? = some '{') (balanced : Balanced inner)
    (cut : chars.drop (start + 1) = inner ++ '}' :: rest) :
    level chars start (start + 1 + inner.length) = 0 := by
  have length : start + 1 + inner.length - start = inner.length + 1 := by omega
  rw [level_eq opening (by omega), cut, length, List.take_length_add_append,
    balance_append (whole_of_balanced balanced), balance_of_balanced balanced]
  rfl

theorem closing?_opening (opening : chars[start]? = some '{') : closing? chars 0 start =
    some ((close? 0 (chars.drop (start + 1))).map fun cut => start + 1 + cut.1.length) := by
  obtain ⟨here, first, -⟩ := exists_at (drop_of_opening opening)
  rw [closing?, dif_pos here]
  simp only [first]
  exact closing?_eq chars 0 (start + 1)

/-- What is cut off behind `i` stands between `i` and its own end. -/
theorem slice?_of_cut (cut : chars.drop i = inner ++ c :: rest) :
    slice? chars i (i + inner.length) = some inner ∧ i + inner.length < chars.length ∧
      chars[i + inner.length]? = some c ∧ chars.drop (i + inner.length + 1) = rest := by
  have behind : chars.drop (i + inner.length) = c :: rest := by
    rw [← List.drop_drop, cut, List.drop_left]
  obtain ⟨inside, last, further⟩ := exists_at behind
  refine ⟨?_, inside, List.getElem?_eq_some_iff.mpr ⟨inside, last⟩, further⟩
  rw [slice?_eq chars (Nat.le_add_right i _) (Nat.le_of_lt inside), List.drop_take, cut,
    Nat.add_sub_cancel_left, List.take_left]

/-- The brace that closes the one at `start` is found by index without the count ever being lowered
at zero, and stands at the first position that balances the unescaped braces counted from `start`;
there is none exactly if no position does. What is between the two is cut at its commas into parts
that each are balanced by themselves, and nothing but the commas is lost. There too no count is
lowered at zero. -/
theorem braces_matched {chars : List Char} {start : Nat} (opening : chars[start]? = some '{') :
    ∃ found, closing? chars 0 start = some found ∧
      found = (close? 0 (chars.drop (start + 1))).map (fun cut => start + 1 + cut.1.length) ∧
      (found = none ↔ ∀ i, ¬ Balances chars start i) ∧
      (∀ i, start ≤ i → i < chars.length → (∀ close ∈ found, i ≤ close) → 0 ≤ level chars start i) ∧
      ∀ close ∈ found,
        IsLeast {i | Balances chars start i} close ∧
        ∃ inner, slice? chars (start + 1) close = some inner ∧
          close? 0 (chars.drop (start + 1)) = some (inner, chars.drop (close + 1)) ∧
          splitFrom? lower? inner 0 0 0 = some (split 0 inner) ∧
          [','].intercalate (split 0 inner) = inner ∧
          ∀ part ∈ split 0 inner, Separate part := by
  refine ⟨_, closing?_opening opening, rfl, ?_⟩
  cases cut : close? 0 (chars.drop (start + 1)) with
  | none =>
    have positive : ∀ i, start ≤ i → 0 < level chars start i :=
      fun i => level_pos_of_none opening cut
    refine ⟨iff_of_true rfl fun i h => ?_, fun i behind _ _ => Int.le_of_lt (positive i behind),
      nofun⟩
    have := positive i (Nat.le_of_lt h.later)
    rw [h.level_eq] at this
    cases this
  | some found =>
    obtain ⟨inner, rest⟩ := found
    obtain ⟨written, balanced⟩ := close?_eq_some_iff.mp cut
    have positive : ∀ i, start ≤ i → i < start + 1 + inner.length → 0 < level chars start i :=
      fun i => level_pos_inside opening balanced written
    have zero := level_close opening balanced written
    obtain ⟨piece, inside, -, behind⟩ := slice?_of_cut written
    have closes : Balances chars start (start + 1 + inner.length) := ⟨by omega, inside, zero⟩
    have parts : splitFrom? lower? inner 0 0 0 = some (split 0 inner) :=
      splitFrom?_whole inner (fun _ => rfl) (.inr (balance_take_nonneg balanced))
    obtain ⟨lossless, branches⟩ := split_of_balanced balanced
    refine ⟨iff_of_false (by simp) fun never => never _ closes, fun i later _ upTo => ?_, ?_⟩
    · rcases Nat.lt_or_eq_of_le (upTo _ rfl) with inside | rfl
      · exact Int.le_of_lt (positive i later inside)
      · exact Int.le_of_eq zero.symm
    · rintro close ⟨⟩
      refine ⟨⟨closes, fun i h => Nat.le_of_not_lt fun inside => ?_⟩, inner, piece, by rw [behind],
        parts, lossless, fun part member => .of_branch (branches part member)⟩
      have := positive i (Nat.le_of_lt h.later) inside
      rw [h.level_eq] at this
      cases this

theorem braces_matched_nested :
    "a\x7bb,\\\x7d,\x7bc\x7d\x7dd".toList[1]? = some '{' ∧
    closing? "a\x7bb,\\\x7d,\x7bc\x7d\x7dd".toList 0 1 = some (some 10) ∧
    IsLeast {i | Balances "a\x7bb,\\\x7d,\x7bc\x7d\x7dd".toList 1 i} 10 ∧
    splitFrom? lower? "b,\\\x7d,\x7bc\x7d".toList 0 0 0 =
      some ["b".toList, "\\\x7d".toList, "\x7bc\x7d".toList] ∧
    Separate "\\\x7d".toList := by
  have opening : "a\x7bb,\\\x7d,\x7bc\x7d\x7dd".toList[1]? = some '{' := by decide
  have cut : close? 0 ("a\x7bb,\\\x7d,\x7bc\x7d\x7dd".toList.drop 2) =
      some ("b,\\\x7d,\x7bc\x7d".toList, "d".toList) := by decide
  obtain ⟨found, scanned, here, -, -, closes⟩ := braces_matched opening
  rw [cut] at here
  obtain ⟨least, inner, -, again, parts, -, separate⟩ := closes 10 here
  obtain ⟨rfl, -⟩ := Prod.mk.inj (Option.some.inj (cut.symm.trans again))
  exact ⟨opening, scanned.trans (congrArg some here), least, parts.trans (by decide),
    separate _ (by decide)⟩

end EditorConfig.Glob
