import EditorConfig.Proofs.Document.Writing
import EditorConfig.Proofs.Lowercase
import EditorConfig.Proofs.Properties.Merging
import Mathlib.Data.List.Infix
/-!
# What a document stores

Limits are checked of keys as they are written, and keys are stored lower-cased. Lower-casing keeps
a key trimmed, undivided and on its line, but it can make it longer: a stored key is within the
limit, save for one byte more for each character that grows.
-/
namespace EditorConfig

namespace Document

/-- A key as a section stores it. -/
structure StoredKey (key : String) : Prop where
  named : key ≠ ""
  trimmed : Text.Trims key.toList key.toList
  undivided : '=' ∉ key.toList
  inLine : '\n' ∉ key.toList

/-- A value as a section stores it. -/
structure StoredValue (value : String) : Prop where
  trimmed : Text.Trims value.toList value.toList
  inLine : '\n' ∉ value.toList
  fits : value.utf8ByteSize ≤ maxValueLength

/-- Where a stored key comes from: a line of the text writes it within the limit, and it is stored
with one byte more at most for each character that grows. -/
structure StoredFrom (lines : List (List Char)) (key value written : String) : Prop where
  line : ∃ line ∈ lines, Line.Reads line (.property written value)
  lowered : Text.lowercase written = key
  fits : written.utf8ByteSize ≤ maxKeyLength
  grown : key.utf8ByteSize ≤ written.utf8ByteSize + Text.growth written.toList

end Document

namespace Text

theorem Trims.mem {s t : List Char} {c : Char} (h : Trims s t) (hc : c ∈ t) : c ∈ s := by
  obtain ⟨front, back, rfl, -, -⟩ := h.cut
  exact List.mem_append_left _ (List.mem_append_right _ hc)

/-- What was trimmed stays as it is when it is trimmed again. -/
theorem Trims.again {s t : List Char} (h : Trims s t) : Trims t t :=
  Line.trims_self h.starts h.ends

end Text

namespace Document
open Text (Trims)
variable {lines : List Line} {s : Section}

/-! ## Sections and their lines -/

/-- The pattern of a section is that of a header, and its entries are those of properties. -/
theorem mem_sectionsOf (h : s ∈ sectionsOf lines) :
    .header s.pattern ∈ lines ∧ ∀ key value, (key, value) ∈ s.properties.entries →
      ∃ written, .property written value ∈ lines ∧ Text.lowercase written = key := by
  obtain ⟨tail, htail, hs⟩ := List.mem_filterMap.mp h
  have inside := ((List.mem_tails ..).mp htail).subset
  unfold section? at hs
  split at hs
  · next pattern below =>
    obtain rfl := Option.some.inj hs
    refine ⟨inside List.mem_cons_self, ?_⟩
    intro key value hentry
    obtain ⟨line, hline, hpair⟩ := List.mem_filterMap.mp (Properties.mem_of_mem_ofList hentry)
    have here := inside (List.mem_cons_of_mem _ (List.takeWhile_subset _ hline))
    unfold Line.pair? at hpair
    split at hpair
    · next written value =>
      obtain ⟨rfl, rfl⟩ := Prod.mk.inj (Option.some.inj hpair)
      exact ⟨written, here, rfl⟩
    · cases hpair
  · cases hs

/-- Every line was read from a piece of the text that holds no line feed. -/
theorem exists_piece {text : List Char} {line : Line}
    (h : line ∈ (Text.lines text).map Line.ofText) :
    ∃ piece ∈ Text.lines text, Line.Reads piece line ∧ '\n' ∉ piece := by
  obtain ⟨piece, hpiece, rfl⟩ := List.mem_map.mp h
  exact ⟨piece, hpiece, Line.reads_iff.mpr rfl, (Text.cuts_iff.mpr rfl).inside piece hpiece⟩

/-! ## One line -/

theorem fits_of_header {piece : List Char} {pattern : String}
    (h : Line.Reads piece (.header pattern)) : pattern.utf8ByteSize ≤ maxPatternLength := by
  obtain ⟨t, -, means⟩ := h
  cases means with
  | header _ fits => exact fits

/-- What a property stores is trimmed, on its line and within the limits as it is written. -/
theorem stored_of_property {piece : List Char} {written value : String}
    (h : Line.Reads piece (.property written value)) (inLine : '\n' ∉ piece) :
    StoredKey (Text.lowercase written) ∧ StoredValue value ∧
      written.utf8ByteSize ≤ maxKeyLength := by
  obtain ⟨t, trims, means⟩ := h
  cases means with
  | property sides named keyFits valueFits =>
    obtain ⟨-, -, left, right, rfl, undivided, hkey, hvalue⟩ := sides
    have formed := Text.formed_lowercase written
    have onLine : ∀ c ∈ left ++ '=' :: right, c ≠ '\n' := fun c hc he =>
      inLine (he ▸ trims.mem hc)
    refine ⟨⟨Text.lowercase_ne_empty named, Text.trims_lowercase hkey.again, ?_, ?_⟩,
      ⟨hvalue.again, ?_, valueFits⟩, keyFits⟩
    · intro equals
      exact undivided (hkey.mem (formed.mem equals (.inr rfl)))
    · intro feed
      have inKey := hkey.mem (formed.mem feed (.inl (by decide)))
      exact onLine _ (List.mem_append_left _ inKey) rfl
    · intro feed
      have inValue := List.mem_cons_of_mem '=' (hvalue.mem feed)
      exact onLine _ (List.mem_append_right _ inValue) rfl

/-! ## Whole documents -/

theorem sections_of_parse {content : String} {d : Document} (h : parse content = .ok d) :
    d.sections = sectionsOf ((Text.lines (Text.dropMark content.toList)).map Line.ofText) := by
  unfold parse at h
  split at h
  · cases h
  · obtain rfl := Except.ok.inj h
    exact (saidBy_ofLines _).sections

/-- Patterns and values are stored within their limits. Keys of a section differ; each of them is
not empty, trimmed, undivided and on one line, and is stored for a line that writes it within the
limit, so that it is never longer than one and a half times the limit. -/
theorem stored_within_limits {content : String} {d : Document} {s : Section}
    (read : parse content = .ok d) (hs : s ∈ d.sections) :
    s.pattern.utf8ByteSize ≤ maxPatternLength ∧ s.properties.keys.Nodup ∧
    ∀ key value, (key, value) ∈ s.properties.entries →
      StoredKey key ∧ StoredValue value ∧
      (∃ written, StoredFrom (Text.lines (Text.dropMark content.toList)) key value written) ∧
      2 * key.utf8ByteSize ≤ 3 * maxKeyLength := by
  rw [sections_of_parse read] at hs
  obtain ⟨header, properties⟩ := mem_sectionsOf hs
  obtain ⟨piece, -, hheader, -⟩ := exists_piece header
  refine ⟨fits_of_header hheader, s.properties.distinct, ?_⟩
  intro key value hentry
  obtain ⟨written, hproperty, rfl⟩ := properties key value hentry
  obtain ⟨piece, hpiece, reads, inLine⟩ := exists_piece hproperty
  obtain ⟨storedKey, storedValue, fits⟩ := stored_of_property reads inLine
  have grown := Text.utf8ByteSize_lowercase_le written
  have half : 2 * Text.growth written.toList ≤ written.utf8ByteSize := by
    simpa using Text.growth_le written.toList
  exact ⟨storedKey, storedValue, ⟨written, ⟨piece, hpiece, reads⟩, rfl, fits, grown⟩, by omega⟩

/-- A key in capitals that lower-casing makes longer, a final sigma and a value with equals sign. -/
theorem stored_within_limits_capitals :
    let content := "[*.md]\n \u0130\u03A3 = a=b \n"
    let s : Section := ⟨"*.md", .ofList [("i\u0307\u03C2", "a=b")]⟩
    parse content = .ok ⟨false, [s], []⟩ ∧ StoredKey "i\u0307\u03C2" ∧
      ∃ written, StoredFrom (Text.lines (Text.dropMark content.toList)) "i\u0307\u03C2" "a=b"
        written := by
  intro content s
  have read : parse content = .ok ⟨false, [s], []⟩ := by decide +kernel
  have all := stored_within_limits read List.mem_cons_self
  have stored := all.2.2 "i\u0307\u03C2" "a=b" (by decide +kernel)
  exact ⟨read, stored.1, stored.2.2.1⟩

/-! ## A longer key -/

theorem utf8ByteSize_replicate (c : Char) (n : Nat) :
    (String.ofList (List.replicate n c)).utf8ByteSize = n * c.utf8Size := by
  induction n with
  | zero => rw [Nat.zero_mul]; rfl
  | succ n ih => rw [List.replicate_succ, Text.utf8ByteSize_cons, ih, Nat.succ_mul, Nat.add_comm]

/-- A letter of two bytes becomes one of three. -/
theorem lowercase_replicate (n : Nat) :
    Text.lowercase (String.ofList (List.replicate n '\u023A')) =
      String.ofList (List.replicate n '\u2C65') := by
  have run : ∀ before, Text.lowerFrom before (List.replicate n '\u023A') =
      List.replicate n '\u2C65' := by
    induction n with
    | zero => exact fun _ => rfl
    | succ n ih =>
      intro before
      have letter : Text.lowerChar '\u023A' = ['\u2C65'] := by decide
      have sigma : '\u023A' ≠ 'Σ' := by decide
      rw [List.replicate_succ, Text.lowerFrom, if_neg sigma, letter, ih]
      rfl
  rw [Text.lowercase, String.toList_ofList, run]

/-- A line that gives such letters, as a key, a value. -/
def stretched (n : Nat) : List Char := List.replicate n '\u023A' ++ ['=', '1']

theorem ofText_stretched {n : Nat} (named : n ≠ 0) (fits : 2 * n ≤ maxKeyLength) :
    Line.ofText (stretched n) =
      .property (String.ofList (List.replicate n '\u023A')) "1" := by
  obtain ⟨m, rfl⟩ := Nat.exists_eq_succ_of_ne_zero named
  have begins : List.replicate (m + 1) '\u023A' = '\u023A' :: List.replicate m '\u023A' := rfl
  have letters : ∀ c ∈ List.replicate (m + 1) '\u023A', Text.isBlank c = false ∧ c ≠ '=' := by
    intro c hc
    rw [List.eq_of_mem_replicate hc]
    decide
  have key : Text.Trims (List.replicate (m + 1) '\u023A')
      (String.ofList (List.replicate (m + 1) '\u023A')).toList := by
    rw [String.toList_ofList]
    exact Line.trims_self (fun c hc => (letters c (List.mem_of_mem_head? hc)).1)
      fun c hc => (letters c (List.mem_of_getLast? hc)).1
  have value : Text.Trims ['1'] "1".toList := Text.trims_iff.mpr (by decide)
  have sides : Line.Sides (stretched (m + 1)) (String.ofList (List.replicate (m + 1) '\u023A'))
      "1" := by
    refine ⟨?_, ?_, _, ['1'], rfl, fun h => (letters _ h).2 rfl, key, value⟩
    · simp [stretched, Line.Quiet, begins]
    · simp [stretched, Line.Heading, begins]
  refine Line.reads_iff.mp ⟨_, Line.trims_self ?_ ?_, .property sides ?_ ?_ (by decide)⟩
  · intro c hc
    obtain rfl : '\u023A' = c := by simpa [stretched, begins] using hc
    decide
  · intro c hc
    obtain rfl : '1' = c := by simpa [stretched] using hc
    decide
  · intro he
    simpa using congrArg String.toList he
  · rw [utf8ByteSize_replicate, Nat.mul_comm]
    exact fits

/-- A text with a key that is written within the limit and stored half as long again. -/
theorem stored_key_beyond_limit :
    ¬ ∀ d, parse (ofWritten ["[*]", String.ofList (stretched 512)]) = .ok d →
      ∀ s ∈ d.sections, ∀ key ∈ s.properties.keys, key.utf8ByteSize ≤ maxKeyLength := by
  intro fits
  have plain : ∀ n, '\n' ∉ stretched n ∧ '\x00' ∉ stretched n := by
    simp [stretched, List.mem_replicate]
  have line : Line.ofText (String.ofList (stretched 512)).toList =
      .property (String.ofList (List.replicate 512 '\u023A')) "1" := by
    rw [String.toList_ofList]
    exact ofText_stretched (by decide) (by decide)
  have read : parse (ofWritten ["[*]", String.ofList (stretched 512)]) = .ok _ :=
    parse_ofWritten (by simpa using plain 512) (by simp)
  rw [List.map_cons, List.map_cons, line] at read
  have size := fits _ read ⟨"*", .ofList [(Text.lowercase
    (String.ofList (List.replicate 512 '\u023A')), "1")]⟩ List.mem_cons_self _ List.mem_cons_self
  rw [lowercase_replicate, utf8ByteSize_replicate] at size
  exact absurd size (by decide)

end Document

end EditorConfig
