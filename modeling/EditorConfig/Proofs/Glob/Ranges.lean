import EditorConfig.Proofs.Glob.Steps
import Mathlib.Data.Int.Order.Basic
/-!
# Ranges between two numerals

A pattern that is one range matches the integers between its bounds, each in one spelling: with as
many digits as both bounds have, if they have equally many, and without leading zeros otherwise. No
integer between the bounds has more digits than they leave room for. With a bound that is no 64-bit
integer the braces are ordinary characters, and so is all that stands between them. A range of which
the program is too large is malformed, though the limit leaves room for its values.
-/
namespace EditorConfig.Glob

/-- Two numerals with two dots between them. -/
def dotted (a b : List Char) : List Char := a ++ '.' :: '.' :: b

/-- The range between two numerals, behind a leading separator. -/
def ranging (a b : List Char) : String := String.ofList ('/' :: '{' :: (dotted a b ++ ['}']))

/-- The number of digits that numerals of `m` and of `n` digits share. -/
def commonWidth (m n : Nat) : Option Nat := if m = n then some m else none

/-- How `k` is written: a minus sign if it is negative, and the digits of its absolute value, with
zeros in front of them if `width` asks for more. -/
def spelled (width : Option Nat) (k : Int) : List Char :=
  (if k < 0 then ['-'] else []) ++ (Nat.toDigits 10 k.natAbs).leftpad (width.getD 0) '0'

variable {limit m n : Nat} {a b rest : List Char} {x y : Int} {path : String}

/-! ## Spellings -/

theorem spell_eq_spelled (range : Numerals) (k : Int) :
    range.spell k = spelled range.width k := by
  rw [Numerals.spell_eq, spelled]
  congr 1
  cases h : range.width with
  | some w => exact Numerals.padded_of_width h k
  | none => simp [Numerals.padded_of_no_width h, List.leftpad]

/-- A spelling is a numeral for the integer that it spells. -/
theorem bound?_spelled (width : Option Nat) (k : Int) :
    ∃ w, Numerals.bound? (spelled width k) = some (k, w) := by
  have numeral := Numerals.numeral_spell ⟨0, 0, width⟩ k
  rw [spell_eq_spelled] at numeral
  exact ⟨_, Numerals.bound?_eq_some_iff.mpr numeral⟩

theorem spelled_inj {width : Option Nat} {j k : Int} (h : spelled width j = spelled width k) :
    j = k := by
  obtain ⟨v, hj⟩ := bound?_spelled width j
  obtain ⟨w, hk⟩ := bound?_spelled width k
  rw [h, hk] at hj
  exact (Prod.mk.inj (Option.some.inj hj)).1.symm

theorem spelled_ne_nil (width : Option Nat) (k : Int) : spelled width k ≠ [] := by
  obtain ⟨w, hk⟩ := bound?_spelled width k
  intro h
  rw [h] at hk
  cases hk

theorem commonWidth_comm (m n : Nat) : commonWidth m n = commonWidth n m := by
  unfold commonWidth
  split
  · next h => rw [if_pos h.symm, h]
  · next h => rw [if_neg (Ne.symm h)]

/-! ## What stands between the braces -/

theorem parse?_dotted (ha : Numeral a x m) (hb : Numeral b y n) :
    Numerals.parse? (dotted a b) =
      if Numerals.InRange x ∧ Numerals.InRange y then some ⟨x, y, commonWidth m n⟩ else none :=
  Numerals.parse?_written ha hb

theorem close?_dotted (ha : Numeral a x m) (hb : Numeral b y n) :
    Braces.close? 0 (dotted a b ++ '}' :: rest) = some (dotted a b, rest) :=
  Braces.close?_eq_some_iff.mpr ⟨rfl, balanced_numerals ha hb⟩

/-! ## Bounds that fit -/

section
variable [Engine]

/-- A range that the limit leaves room for is read as itself. -/
theorem readFrom_ranging (ha : Numeral a x m) (hb : Numeral b y n)
    (fits : Numerals.InRange x ∧ Numerals.InRange y) (room : (x - y).natAbs + 1 ≤ limit)
    (listed : Engine.lists ⟨min x y, max x y, commonWidth m n⟩ = true) :
    ∃ count, Reader.readFrom limit none (body (ranging a b).toList) 0 =
      .ok (.atom (.numeral ⟨min x y, max x y, commonWidth m n⟩) .nil, count) := by
  have parsed := (parse?_dotted ha hb).trans (if_pos fits)
  have within : ¬ limit < Reader.addCount 0 ⟨x, y, commonWidth m n⟩ := by
    simp only [Reader.addCount]
    omega
  have counted : Reader.writeOut limit 0 ⟨x, y, commonWidth m n⟩ =
      .ok (Reader.addCount 0 ⟨x, y, commonWidth m n⟩) := by
    rw [Reader.writeOut, if_neg within]
    exact if_pos listed
  refine ⟨Reader.addCount 0 ⟨x, y, commonWidth m n⟩, ?_⟩
  rw [ranging, String.toList_ofList, body, Reader.readFrom_numeral (close?_dotted ha hb) parsed,
    counted]
  simp only [Reader.readFrom]
  rfl

/-- It compiles to itself unless its program is too large. -/
theorem compile_ranging (ha : Numeral a x m) (hb : Numeral b y n)
    (fits : Numerals.InRange x ∧ Numerals.InRange y) (room : (x - y).natAbs + 1 ≤ limit)
    (listed : Engine.lists ⟨min x y, max x y, commonWidth m n⟩ = true) :
    (∃ g, compile (ranging a b) limit = .ok g) ↔
      Engine.size (.atom (.numeral ⟨min x y, max x y, commonWidth m n⟩) .nil) ≤ maxSize := by
  obtain ⟨count, read⟩ := readFrom_ranging ha hb fits room listed
  have depth : (Atom.numeral ⟨min x y, max x y, commonWidth m n⟩).depth ≤ 3 := by
    rw [Atom.depth]
    split <;> split <;> decide
  have shallow := (Pattern.shallow_nil.atom rfl depth).depth_le
  have nested : (Pattern.atom (.numeral ⟨min x y, max x y, commonWidth m n⟩) .nil).depth + 2 ≤
      maxDepth := by
    unfold maxDepth
    omega
  constructor
  · rintro ⟨g, compiled⟩
    exact fits_of_compile compiled _ count read
  · exact fun size => ⟨⟨ranging a b, _⟩,
      compile_eq_ok_iff.mpr ⟨rfl, ⟨count, read⟩, rfl, nested, size⟩⟩

theorem accepts_ranging (ha : Numeral a x m) (hb : Numeral b y n)
    (fits : Numerals.InRange x ∧ Numerals.InRange y) (room : (x - y).natAbs + 1 ≤ limit)
    (listed : Engine.lists ⟨min x y, max x y, commonWidth m n⟩ = true) :
    Accepts limit (ranging a b) path ↔
      Engine.size (.atom (.numeral ⟨min x y, max x y, commonWidth m n⟩) .nil) ≤ maxSize ∧
      ∃ k, min x y ≤ k ∧ k ≤ max x y ∧ path.toList = spelled (commonWidth m n) k := by
  have parsed := (parse?_dotted ha hb).trans (if_pos fits)
  have range : ∀ s, Denotes none ('{' :: (dotted a b ++ ['}'])) s ↔
      ∃ k, min x y ≤ k ∧ k ≤ max x y ∧ s = spelled (commonWidth m n) k := by
    intro s
    rw [denotes_numeral (close?_dotted ha hb) parsed]
    simp only [Then, denotes_nil, Numerals.spells_iff, spell_eq_spelled, Numerals.least,
      Numerals.greatest, and_assoc]
    constructor
    · rintro ⟨u, _, rfl, ⟨k, low, high, rfl⟩, rfl⟩
      exact ⟨k, low, high, List.append_nil _⟩
    · rintro ⟨k, low, high, rfl⟩
      exact ⟨_, [], (List.append_nil _).symm, ⟨k, low, high, rfl⟩, rfl⟩
  have matched {g : Glob} (compiled : compile (ranging a b) limit = .ok g) :
      Accepts limit (ranging a b) path ↔
        ∃ k, min x y ≤ k ∧ k ≤ max x y ∧ path.toList = spelled (commonWidth m n) k := by
    rw [ranging] at compiled ⊢
    rw [accepts_iff_of_compile compiled, range]
    constructor
    · exact fun h => h.2
    · rintro ⟨k, low, high, hk⟩
      exact ⟨hk ▸ spelled_ne_nil _ k, k, low, high, hk⟩
  rw [← compile_ranging ha hb fits room listed]
  constructor
  · rintro ⟨g, compiled, h⟩
    exact ⟨⟨g, compiled⟩, (matched compiled).mp ⟨g, compiled, h⟩⟩
  · rintro ⟨⟨g, compiled⟩, h⟩
    exact (matched compiled).mpr h

end

/-- Between bounds of one width every spelling has that many digits. -/
theorem exists_digits_spelled (ha : Numeral a x m) (hb : Numeral b y n)
    (fits : Numerals.InRange x ∧ Numerals.InRange y) {w : Nat} (width : commonWidth m n = some w)
    {k : Int} (low : min x y ≤ k) (high : k ≤ max x y) :
    ∃ digits, spelled (some w) k = (if k < 0 then ['-'] else []) ++ digits ∧
      Digits digits ∧ digits.length = w := by
  have parsed := (parse?_dotted ha hb).trans (if_pos fits)
  rw [width] at parsed
  have range : NumeralRange (dotted a b) x y (some w) := Numerals.parse?_eq_some_iff.mp parsed
  have room := Numerals.fits_of_range (r := ⟨x, y, some w⟩) range ⟨low, high⟩
  have spelling := (Numerals.spelling_iff room).mpr rfl
  rw [spell_eq_spelled] at spelling
  obtain ⟨digits, written, hdigits, -, length⟩ := spelling
  exact ⟨digits, written, hdigits, length⟩

/-! ## Bounds that do not fit -/

theorem not_opensGroup_dotted (ha : Numeral a x m) (hb : Numeral b y n)
    (unfit : ¬ (Numerals.InRange x ∧ Numerals.InRange y)) :
    ¬ OpensGroup (dotted a b ++ '}' :: rest) := by
  rintro ⟨inner, behind, written, ⟨low, high, width, range⟩ | ⟨branches, choices⟩⟩
  · obtain ⟨parsed, -⟩ := range_of_close? (close?_dotted ha hb) written range
    rw [parse?_dotted ha hb, if_neg unfit] at parsed
    cases parsed
  · obtain ⟨rfl, -⟩ := close?_unique (close?_dotted ha hb) written choices.balanced
    exact not_mem_numerals ha hb (by decide) (comma_mem_choices choices)

section
variable [Engine]

theorem reads_unfit (limit : Nat) (ha : Numeral a x m) (hb : Numeral b y n)
    (unfit : ¬ (Numerals.InRange x ∧ Numerals.InRange y)) :
    Steps none ('{' :: (dotted a b ++ ['}'])) (('{' :: (dotted a b ++ ['}'])).map .char)
        (lastOf (some '{') (dotted a b ++ ['}'])) [] ∧
      Reader.Reads limit 0 none ('{' :: (dotted a b ++ ['}'])) := by
  have plain : ∀ c ∈ dotted a b ++ ['}'], c ∉ ['\\', '?', '*', '[', '{'] := by
    intro c hc special
    rcases List.mem_append.mp hc with hc | hc
    · exact not_mem_numerals ha hb (List.mem_append_left [',', '}'] special) hc
    · rw [List.mem_singleton.mp hc] at special
      simp at special
  have steps : Steps none ('{' :: (dotted a b ++ ['}']))
      (('{' :: (dotted a b ++ ['}'])).map .char) (lastOf (some '{') (dotted a b ++ ['}'])) [] := by
    refine .cons (.plainBrace (not_opensGroup_dotted ha hb unfit)) ?_
    have := steps_ordinary (some '{') [] plain
    rwa [List.append_nil] at this
  exact ⟨steps, .behind_chars steps Reader.reads_nil⟩

theorem accepts_unfit (ha : Numeral a x m) (hb : Numeral b y n)
    (unfit : ¬ (Numerals.InRange x ∧ Numerals.InRange y)) (size : Fits limit (ranging a b)) :
    Accepts limit (ranging a b) path ↔ path.toList = '{' :: (dotted a b ++ ['}']) := by
  obtain ⟨steps, reads⟩ := reads_unfit limit ha hb unfit
  rw [ranging] at size ⊢
  rw [accepts_anchored reads (by decide) size, denotes_chars steps]
  simp only [denotes_nil]
  constructor
  · rintro ⟨-, _, hpath, rfl⟩
    exact hpath.trans (List.append_nil _)
  · intro hpath
    exact ⟨by simp [hpath], [], hpath.trans (List.append_nil _).symm, rfl⟩

/-- Two numerals for 64-bit integers, with room for all integers between them, match these integers
in one spelling each, in either order, unless the program for them is too large; bounds of one width
fix the number of digits. Two numerals of which one is beyond that match what is written. -/
theorem range_exact (ha : Numeral a x m) (hb : Numeral b y n) :
    ((-2 ^ 63 ≤ x ∧ x < 2 ^ 63) ∧ (-2 ^ 63 ≤ y ∧ y < 2 ^ 63) →
      (∀ limit, (x - y).natAbs + 1 ≤ limit →
        Engine.lists ⟨min x y, max x y, commonWidth m n⟩ = true →
        (Fits limit (ranging a b) → (∃ g, compile (ranging a b) limit = .ok g) ∧ ∀ path,
          (Accepts limit (ranging a b) path ↔
            ∃ k, min x y ≤ k ∧ k ≤ max x y ∧ path.toList = spelled (commonWidth m n) k)) ∧
        (¬ Fits limit (ranging a b) →
          compile (ranging a b) limit = .error (.malformed (ranging a b))) ∧
        ∀ path, Accepts limit (ranging b a) path ↔ Accepts limit (ranging a b) path) ∧
      (∀ w, commonWidth m n = some w → ∀ k, min x y ≤ k → k ≤ max x y →
        ∃ digits, spelled (some w) k = (if k < 0 then ['-'] else []) ++ digits ∧
          Digits digits ∧ digits.length = w) ∧
      ∀ j k, spelled (commonWidth m n) j = spelled (commonWidth m n) k → j = k) ∧
    (¬ ((-2 ^ 63 ≤ x ∧ x < 2 ^ 63) ∧ (-2 ^ 63 ≤ y ∧ y < 2 ^ 63)) →
      ∀ limit, Fits limit (ranging a b) → (∃ g, compile (ranging a b) limit = .ok g) ∧ ∀ path,
        (Accepts limit (ranging a b) path ↔ path.toList = '{' :: (dotted a b ++ ['}']))) := by
  refine ⟨fun fits =>
      ⟨fun limit room listed => ⟨fun size => ?_, compile_of_not_fits, fun path => ?_⟩,
    fun w width k low high => exists_digits_spelled ha hb fits width low high,
    fun j k same => spelled_inj same⟩,
    fun unfit limit size => ⟨?_, fun path => accepts_unfit ha hb unfit size⟩⟩
  · obtain ⟨count, read⟩ := readFrom_ranging ha hb fits room listed
    have small := size _ count read
    refine ⟨(compile_ranging ha hb fits room listed).mpr small, fun path => ?_⟩
    rw [accepts_ranging ha hb fits room listed]
    exact and_iff_right small
  · have swapped : (y - x).natAbs + 1 ≤ limit := by omega
    have same : (⟨min y x, max y x, commonWidth n m⟩ : Numerals) =
        ⟨min x y, max x y, commonWidth m n⟩ := by
      rw [min_comm, max_comm, commonWidth_comm]
    rw [accepts_ranging ha hb fits room listed,
      accepts_ranging hb ha fits.symm swapped (same ▸ listed), same, min_comm y, max_comm y,
      commonWidth_comm n]
  · rw [ranging] at size ⊢
    exact (exists_compile_anchored_iff (reads_unfit limit ha hb unfit).2 (by decide)).mpr size

end

theorem range_exact_signed :
    ranging "-03".toList "+12".toList = "/\x7b-03..+12\x7d" ∧
    Accepts 16 "/\x7b-03..+12\x7d" "-01" ∧ ¬ Accepts 16 "/\x7b-03..+12\x7d" "1" ∧
    (Accepts 16 "/\x7b+12..-03\x7d" "07" ↔ Accepts 16 "/\x7b-03..+12\x7d" "07") ∧
    Accepts 16 "/\x7b-03..9223372036854775808\x7d" "\x7b-03..9223372036854775808\x7d" := by
  have low : Numeral "-03".toList (-3) 2 := Numerals.bound?_eq_some_iff.mp (by decide)
  have high : Numeral "+12".toList 12 2 := Numerals.bound?_eq_some_iff.mp (by decide)
  have beyond : Numeral "9223372036854775808".toList (2 ^ 63) 19 :=
    Numerals.bound?_eq_some_iff.mp (by decide)
  obtain ⟨ranged, padded, -⟩ := (range_exact low high).1 (by decide)
  obtain ⟨compiled, -, swapped⟩ := ranged 16 (by decide) (by decide)
  obtain ⟨-, matched⟩ := compiled (by decide +kernel)
  obtain ⟨-, literal⟩ := (range_exact low beyond).2 (by decide) 16 (by decide +kernel)
  refine ⟨rfl, (matched "-01").mpr ⟨-1, by decide, by decide, by decide⟩, fun h => ?_,
    swapped "07", (literal _).mpr rfl⟩
  obtain ⟨k, least, greatest, written⟩ := (matched "1").mp h
  obtain ⟨digits, spelling, -, two⟩ := padded 2 rfl k least greatest
  have length : 1 = _ := congrArg List.length (written.trans spelling)
  rw [List.length_append, two] at length
  omega

/-- The limit leaves room for a million values, the program for them is too large. -/
theorem range_oversized :
    Numeral "1".toList 1 1 ∧ Numeral "1000000".toList 1000000 7 ∧
    ranging "1".toList "1000000".toList = "/\x7b1..1000000\x7d" ∧
    ((1 : Int) - 1000000).natAbs + 1 ≤ 1000000 ∧ "7".toList = spelled (commonWidth 1 7) 7 ∧
    compile "/\x7b1..1000000\x7d" 1000000 = .error (.malformed "/\x7b1..1000000\x7d") ∧
    ¬ Accepts 1000000 "/\x7b1..1000000\x7d" "7" := by
  have one : Numeral "1".toList 1 1 := Numerals.bound?_eq_some_iff.mp (by decide)
  have million : Numeral "1000000".toList 1000000 7 := Numerals.bound?_eq_some_iff.mp (by decide)
  have large : ¬ Fits 1000000 "/\x7b1..1000000\x7d" := by decide +kernel
  have malformed := compile_of_not_fits large
  refine ⟨one, million, by decide, by decide, by decide, malformed, ?_⟩
  rintro ⟨g, compiled, -⟩
  cases malformed.symm.trans compiled

end EditorConfig.Glob
