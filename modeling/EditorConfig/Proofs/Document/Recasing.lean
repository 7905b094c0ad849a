import EditorConfig.Proofs.Document.Blocks
import EditorConfig.Proofs.LetterCase
/-!
# Documents in another letter case

Outside headers a text may be written in large or small letters of ASCII. Keys and the root flag are
read without regard to it and lengths stay the same, so it shows in the values of properties and
nowhere else. What is compared of a document is therefore what is left of it when its values are
written in small letters, and reading commutes with that, line by line.
-/
namespace EditorConfig

/-- A text in small letters of ASCII. -/
def Text.lowered (s : String) : String := String.ofList (asciiLower s.toList)

/-- The properties with their values in small letters. -/
def Properties.lowered (p : Properties) : Properties :=
  ⟨p.entries.map fun (key, value) => (key, Text.lowered value), by
    simpa [List.map_map, Function.comp_def] using p.distinct⟩

/-- The section with its values in small letters. -/
def Section.lowered (s : Section) : Section := { s with properties := s.properties.lowered }

/-- What a line says in small letters. A header is not written in another way. -/
def Line.lowered : Line → Line
  | property key value => property (Text.lowered key) (Text.lowered value)
  | line => line

namespace Document

/-- The document with its values in small letters. -/
def lowered (d : Document) : Document := { d with sections := d.sections.map Section.lowered }

/-- The reading with the values read so far in small letters. -/
def Reading.lowered (r : Reading) : Reading :=
  { r with sections := r.sections.map Section.lowered }

/-- `text'` is `text` with large and small letters of ASCII written for each other, and the lines of
`text` that open a header are left as they are. -/
structure Recased (text text' : String) : Prop where
  letters : Text.asciiLower text'.toList = Text.asciiLower text.toList
  headers : List.Forall₂ (fun line line' => Line.Opens line → line' = line)
    (Text.lines (Text.dropMark text.toList)) (Text.lines (Text.dropMark text'.toList))

end Document

/-! ## Texts -/

namespace Text

theorem toList_lowered (s : String) : (lowered s).toList = asciiLower s.toList :=
  String.toList_ofList

theorem asciiLower_lowered (s : String) : asciiLower (lowered s).toList = asciiLower s.toList := by
  rw [toList_lowered, asciiLower, asciiLower, List.map_map]
  exact List.map_congr_left fun c _ => apply_toLower (f := Char.toLower) (by decide) c

theorem lowercase_lowered (s : String) : lowercase (lowered s) = lowercase s :=
  lowercase_congr (asciiLower_lowered s)

theorem equalIgnoringCase_lowered (s t : String) :
    equalIgnoringCase (lowered s) t = equalIgnoringCase s t :=
  equalIgnoringCase_congr (asciiLower_lowered s) t

theorem dropMark_asciiLower (s : List Char) :
    dropMark (asciiLower s) = asciiLower (dropMark s) := by
  have mark : ∀ c : Char, c.toLower = '\uFEFF' ↔ c = '\uFEFF' := fun c => toLower_eq_iff (by decide)
  rw [← unmarked_iff]
  rcases unmarked_iff.mpr (rfl : dropMark s = dropMark s) with h | ⟨h, unmarked⟩
  · exact .inl (congrArg asciiLower h)
  · refine .inr ⟨congrArg asciiLower h, fun first => unmarked ?_⟩
    rw [asciiLower, List.head?_map] at first
    obtain ⟨c, hc, he⟩ := Option.map_eq_some_iff.mp first
    rw [hc, (mark c).mp he]

theorem count_asciiLower {sep : Char} (h : sep.isAlpha = false) (s : List Char) :
    (asciiLower s).count sep = s.count sep := by
  rw [asciiLower, List.count_eq_countP, List.count_eq_countP, List.countP_map]
  refine List.countP_congr fun c _ => ?_
  simpa using toLower_eq_iff h

end Text

/-! ## Properties -/

namespace Properties

@[simp] theorem keys_lowered (p : Properties) : p.lowered.keys = p.keys := by
  simp [lowered, keys]

theorem lookup_lowered (key : String) (entries : List (String × String)) :
    (entries.map fun (k, v) => (k, Text.lowered v)).lookup key =
      (entries.lookup key).map Text.lowered := by
  induction entries with
  | nil => rfl
  | cons e rest ih =>
    rw [List.map_cons, List.lookup_cons, List.lookup_cons, ih]
    cases key == e.1 <;> rfl

theorem get?_lowered (p : Properties) (key : String) :
    p.lowered.get? key = (p.get? key).map Text.lowered := lookup_lowered key p.entries

theorem set_lowered (key value : String) (entries : List (String × String)) :
    set key (Text.lowered value) (entries.map fun (k, v) => (k, Text.lowered v)) =
      (set key value entries).map fun (k, v) => (k, Text.lowered v) := by
  induction entries with
  | nil => rfl
  | cons e rest ih =>
    obtain ⟨k, v⟩ := e
    by_cases h : k = key <;> simp [set, h, ih]

theorem lowered_insert (p : Properties) (key value : String) :
    (p.insert key value).lowered = p.lowered.insert key (Text.lowered value) :=
  ext_entries (set_lowered key value p.entries).symm

theorem lowered_insertMany (p : Properties) (pairs : List (String × String)) :
    (p.insertMany pairs).lowered =
      p.lowered.insertMany (pairs.map fun (k, v) => (k, Text.lowered v)) := by
  induction pairs generalizing p with
  | nil => rfl
  | cons e pairs ih =>
    obtain ⟨key, value⟩ := e
    rw [insertMany_cons, ih, lowered_insert]
    rfl

theorem lowered_merge (p other : Properties) :
    (p.merge other).lowered = p.lowered.merge other.lowered :=
  lowered_insertMany p other.entries

end Properties

/-! ## Lines -/

namespace Line

theorem ofSides_asciiLower (left right : List Char) :
    ofSides (Text.asciiLower left) (Text.asciiLower right) = (ofSides left right).lowered := by
  have key : String.ofList (Text.asciiLower (Text.trim left)) = "" ↔
      String.ofList (Text.trim left) = "" := by
    simp [Text.asciiLower]
  simp only [ofSides, Text.trim_asciiLower, Text.utf8ByteSize_asciiLower, key]
  split
  · rfl
  · split
    · rfl
    · split
      · rfl
      · simp [lowered, Text.lowered]

theorem head?_asciiLower {c : Char} (h : c.isAlpha = false) (t : List Char) :
    (Text.asciiLower t).head? = some c ↔ t.head? = some c := by
  cases t with
  | nil => rfl
  | cons d t => simpa [Text.asciiLower] using Text.toLower_eq_iff h

theorem heading_asciiLower {t : List Char} : Heading (Text.asciiLower t) ↔ Heading t :=
  head?_asciiLower (by decide) t

theorem quiet_asciiLower {t : List Char} : Quiet (Text.asciiLower t) ↔ Quiet t := by
  rw [Quiet, Quiet, head?_asciiLower (by decide), head?_asciiLower (by decide), Text.asciiLower,
    List.map_eq_nil_iff]

theorem ofTrimmed_asciiLower {t : List Char} (plain : ¬ Heading t) :
    ofTrimmed (Text.asciiLower t) = (ofTrimmed t).lowered := by
  by_cases quiet : Quiet t
  · rw [ofTrimmed_eq_of_means (.nothing quiet),
      ofTrimmed_eq_of_means (.nothing (quiet_asciiLower.mpr quiet))]
    rfl
  · rw [ofTrimmed_loud quiet plain, ofTrimmed_loud (mt quiet_asciiLower.mp quiet)
      (mt heading_asciiLower.mp plain), Text.cut?_asciiLower (by decide)]
    cases Text.cut? '=' t with
    | none => rfl
    | some sides => exact ofSides_asciiLower sides.1 sides.2

theorem opens_asciiLower {s : List Char} : Opens (Text.asciiLower s) ↔ Opens s := by
  rw [opens_iff, opens_iff, Text.trim_asciiLower, heading_asciiLower]

theorem ofText_asciiLower {s : List Char} (plain : ¬ Opens s) :
    ofText (Text.asciiLower s) = (ofText s).lowered := by
  rw [ofText, Text.trim_asciiLower, ofTrimmed_asciiLower (mt opens_iff.mpr plain), ofText]

theorem lowered_ofText {s s' : List Char} (letters : Text.asciiLower s' = Text.asciiLower s)
    (header : Opens s → s' = s) : (ofText s').lowered = (ofText s).lowered := by
  by_cases opens : Opens s
  · rw [header opens]
  · have plain : ¬ Opens s' := by
      rwa [← opens_asciiLower, letters, opens_asciiLower]
    rw [← ofText_asciiLower opens, ← ofText_asciiLower plain, letters]

/-- Lines in another letter case say the same in small letters. -/
theorem map_lowered_ofText {lines lines' : List (List Char)}
    (headers : List.Forall₂ (fun line line' => Opens line → line' = line) lines lines')
    (letters : lines'.map Text.asciiLower = lines.map Text.asciiLower) :
    (lines'.map ofText).map lowered = (lines.map ofText).map lowered := by
  induction headers with
  | nil => rfl
  | cons header _ ih =>
    obtain ⟨here, below⟩ := List.cons.inj letters
    rw [List.map_cons, List.map_cons, List.map_cons, List.map_cons, lowered_ofText here header,
      ih below]

end Line

/-! ## Reading -/

namespace Document

namespace Reading

theorem lowered_setLast (key value : String) (sections : List Section) :
    (setLast key value sections).map Section.lowered =
      setLast key (Text.lowered value) (sections.map Section.lowered) := by
  cases sections with
  | nil => rfl
  | cons s rest => simp [setLast, Section.lowered, Properties.lowered_insert]

/-- One line is taken in alike. -/
theorem lowered_next (r : Reading) (number : Nat) (line : Line) :
    (r.next number line).lowered = r.lowered.next number line.lowered := by
  cases line with
  | property key value =>
    obtain ⟨scope, isRoot, sections, skipped⟩ := r
    cases scope with
    | preamble =>
      simp only [next, Line.lowered, lowered, Text.equalIgnoringCase_lowered]
      split <;> rfl
    | sectionBody =>
      simp only [next, Line.lowered, lowered, Text.lowercase_lowered, lowered_setLast]
    | discarding => rfl
  | nothing | header | badHeader | malformed => rfl

theorem lowered_nextAll (r : Reading) (number : Nat) (lines : List Line) :
    (r.nextAll number lines).lowered = r.lowered.nextAll number (lines.map Line.lowered) := by
  induction lines generalizing r number with
  | nil => rfl
  | cons line rest ih => rw [nextAll, ih, lowered_next, List.map_cons, nextAll]

end Reading

theorem lowered_ofLines (lines : List Line) :
    (ofLines lines).lowered = ofLines (lines.map Line.lowered) := by
  have read := Reading.lowered_nextAll .start 1 lines
  have start : Reading.start.lowered = .start := rfl
  rw [start] at read
  rw [ofLines, ofLines, ← read]
  simp [Reading.finish, Reading.lowered, lowered]

/-- Texts in another letter case are read or refused alike, save for the case of values. -/
theorem parse_recased {text text' : String} (h : Recased text text') :
    (parse text').map lowered = (parse text).map lowered := by
  have lines : (Text.lines (Text.dropMark text'.toList)).map Text.asciiLower =
      (Text.lines (Text.dropMark text.toList)).map Text.asciiLower := by
    rw [← Text.lines_asciiLower, ← Text.lines_asciiLower, ← Text.dropMark_asciiLower,
      ← Text.dropMark_asciiLower, h.letters]
  have read : (ofLines ((Text.lines (Text.dropMark text'.toList)).map Line.ofText)).lowered =
      (ofLines ((Text.lines (Text.dropMark text.toList)).map Line.ofText)).lowered := by
    rw [lowered_ofLines, lowered_ofLines, Line.map_lowered_ofText h.headers lines]
  -- A NUL character stays where it is, and so do the line feeds in front of it.
  have cut : (Text.cut? '\x00' text'.toList).map (Prod.map Text.asciiLower Text.asciiLower) =
      (Text.cut? '\x00' text.toList).map (Prod.map Text.asciiLower Text.asciiLower) := by
    rw [← Text.cut?_asciiLower (by decide), ← Text.cut?_asciiLower (by decide), h.letters]
  rw [parse, parse]
  cases hcut : Text.cut? '\x00' text.toList with
  | none =>
    rw [hcut, Option.map_none, Option.map_eq_none_iff] at cut
    rw [cut]
    exact congrArg Except.ok read
  | some sides =>
    rw [hcut] at cut
    obtain ⟨sides', hcut', same⟩ := Option.map_eq_some_iff.mp cut
    have before : sides'.1.count '\n' = sides.1.count '\n' := by
      rw [← Text.count_asciiLower (by decide), ← Text.count_asciiLower (by decide) sides.1]
      exact congrArg (List.count '\n') (congrArg Prod.fst same)
    rw [hcut']
    exact congrArg (fun n => Except.error (BinaryContent.mk (n + 1))) before

end Document

end EditorConfig
