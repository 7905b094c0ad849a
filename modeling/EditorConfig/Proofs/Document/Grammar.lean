import EditorConfig.Document
import EditorConfig.Proofs.Text
import Mathlib.Data.List.Forall2
/-!
# The grammar of documents

What the text of a configuration file says, told of the text and without a reader. `Line.Means`
tells what one trimmed line means by its form alone. `Document.SaidBy` tells which document lines
make up, by looking at a line and at what stands above or below it: a property belongs to the
nearest header above it, and a header has the lines below it up to the next header.
-/
namespace EditorConfig

namespace Line

/-! ## One line -/

/-- A blank line or a comment. -/
def Quiet (t : List Char) : Prop := t = [] ∨ t.head? = some '#' ∨ t.head? = some ';'

/-- A line that begins like a header. -/
def Heading (t : List Char) : Prop := t.head? = some '['

/-- `t` is neither blank, comment nor header, and what stands on the two sides of its first equals
sign is `key` and `value` with blank characters around them. -/
def Sides (t : List Char) (key value : String) : Prop :=
  ¬ Quiet t ∧ ¬ Heading t ∧ ∃ left right, t = left ++ '=' :: right ∧ '=' ∉ left ∧
    Text.Trims left key.toList ∧ Text.Trims right value.toList

/-- What the trimmed line `t` means by itself. -/
inductive Means (t : List Char) : Line → Prop
  | nothing (quiet : Quiet t) : Means t .nothing
  | header {pattern : String} (written : t = '[' :: pattern.toList ++ [']'])
      (fits : pattern.utf8ByteSize ≤ maxPatternLength) : Means t (.header pattern)
  | unterminated (heading : Heading t) (opening : ∀ inner, t ≠ '[' :: inner ++ [']']) :
      Means t (.badHeader .unterminatedSection)
  | sectionTooLong {pattern : String} (written : t = '[' :: pattern.toList ++ [']'])
      (long : maxPatternLength < pattern.utf8ByteSize) : Means t (.badHeader .sectionTooLong)
  | missingEquals (loud : ¬ Quiet t) (plain : ¬ Heading t) (equals : '=' ∉ t) :
      Means t (.malformed .missingEquals)
  | emptyKey {value : String} (sides : Sides t "" value) : Means t (.malformed .emptyKey)
  | keyTooLong {key value : String} (sides : Sides t key value)
      (long : maxKeyLength < key.utf8ByteSize) : Means t (.malformed .keyTooLong)
  | valueTooLong {key value : String} (sides : Sides t key value) (named : key ≠ "")
      (fits : key.utf8ByteSize ≤ maxKeyLength) (long : maxValueLength < value.utf8ByteSize) :
      Means t (.malformed .valueTooLong)
  | property {key value : String} (sides : Sides t key value) (named : key ≠ "")
      (keyFits : key.utf8ByteSize ≤ maxKeyLength)
      (valueFits : value.utf8ByteSize ≤ maxValueLength) : Means t (.property key value)

/-- What a line means when the blank characters around it are left out. -/
def Reads (s : List Char) (line : Line) : Prop := ∃ t, Text.Trims s t ∧ Means t line

/-- Whether a line is a header, accepted or rejected. -/
def isHeader : Line → Bool
  | header _ | badHeader _ => true
  | _ => false

/-- What a property sets in its section. -/
def pair? : Line → Option (String × String)
  | property key value => some (Text.lowercase key, value)
  | _ => none

/-- What a property above all headers gives the key `root`. -/
def root? : Line → Option String
  | property key value => if Text.equalIgnoringCase key "root" then some value else none
  | _ => none

end Line

namespace Document

/-! ## Many lines -/

/-- The lines up to the next header. -/
def block (below : List Line) : List Line := below.takeWhile fun line => !line.isHeader

/-- The section of the header that lines begin with. -/
def section? : List Line → Option Section
  | .header pattern :: below => some ⟨pattern, .ofList ((block below).filterMap Line.pair?)⟩
  | _ => none

/-- The sections of all headers. -/
def sectionsOf (lines : List Line) : List Section := lines.tails.filterMap section?

/-- Whether the last setting of `root` above all headers says that it is true. -/
def rootOf (lines : List Line) : Bool :=
  ((block lines).filterMap Line.root?).getLast?.any (Text.equalIgnoringCase · "true")

/-- The nearest header above a line. -/
def headerAbove? (above : List Line) : Option Line := (above.filter Line.isHeader).getLast?

/-- A line below the lines `above` is skipped. -/
inductive Skips (above : List Line) : Line → SkipReason → Prop
  | badHeader {reason : SkipReason} : Skips above (.badHeader reason) reason
  | malformed {reason : SkipReason} : Skips above (.malformed reason) reason
  | orphan {key value : String} {reason : SkipReason}
      (rejected : headerAbove? above = some (.badHeader reason)) :
      Skips above (.property key value) .orphanProperty

/-- `d` is the document that lines make up. -/
structure SaidBy (d : Document) (lines : List Line) : Prop where
  sections : d.sections = sectionsOf lines
  isRoot : d.isRoot = rootOf lines
  ascending : d.skipped.Pairwise fun a b => a.line < b.line
  skipped : ∀ number reason, ⟨number, reason⟩ ∈ d.skipped ↔
    ∃ above line below, lines = above ++ line :: below ∧ number = above.length + 1 ∧
      Skips above line reason

/-- The lines of a text, without the byte order mark that may stand in front of it. -/
def Written (content : List Char) (lines : List Line) : Prop :=
  ∃ text pieces, Text.Unmarked content text ∧ Text.Cuts text pieces ∧
    List.Forall₂ Line.Reads pieces lines

end Document

namespace Line

/-! ## Reading one line -/

variable {t : List Char} {line : Line}

theorem quiet_cons {c : Char} {s : List Char} : Quiet (c :: s) ↔ c = '#' ∨ c = ';' := by
  simp [Quiet]

theorem heading_cons {c : Char} {s : List Char} : Heading (c :: s) ↔ c = '[' := by
  simp [Heading]

theorem headerPattern?_eq_some_iff {s pattern : List Char} :
    headerPattern? s = some pattern ↔ s = pattern ++ [']'] := by
  unfold headerPattern?
  constructor
  · intro h
    split at h
    · next hlast =>
      obtain rfl := Option.some.inj h
      obtain ⟨front, rfl⟩ := List.getLast?_eq_some_iff.mp hlast
      simp
    · cases h
  · rintro rfl
    simp

theorem not_written_of_headerPattern? {s : List Char} (h : headerPattern? s = none)
    (inner : List Char) : '[' :: s ≠ '[' :: inner ++ [']'] := by
  intro he
  rw [headerPattern?_eq_some_iff.mpr (List.cons.inj he).2] at h
  cases h

theorem means_ofHeader (s : List Char) : Means ('[' :: s) (ofHeader s) := by
  unfold ofHeader
  cases h : headerPattern? s with
  | none => exact .unterminated rfl (not_written_of_headerPattern? h)
  | some pattern =>
    have written : '[' :: s = '[' :: (String.ofList pattern).toList ++ [']'] := by
      rw [headerPattern?_eq_some_iff.mp h, String.toList_ofList]
      rfl
    dsimp only
    split
    · next long => exact .sectionTooLong written long
    · next fits => exact .header written (Nat.le_of_not_lt fits)

theorem means_ofSides {left right : List Char} (loud : ¬ Quiet t) (plain : ¬ Heading t)
    (written : t = left ++ '=' :: right) (first : '=' ∉ left) : Means t (ofSides left right) := by
  have sides : Sides t (String.ofList (Text.trim left)) (String.ofList (Text.trim right)) := by
    refine ⟨loud, plain, left, right, written, first, ?_, ?_⟩
    · rw [String.toList_ofList]
      exact Text.trims_trim left
    · rw [String.toList_ofList]
      exact Text.trims_trim right
  unfold ofSides
  dsimp only
  split
  · next empty => exact .emptyKey (empty ▸ sides)
  · next named =>
    split
    · next long => exact .keyTooLong sides long
    · next keyFits =>
      split
      · next long => exact .valueTooLong sides named (Nat.le_of_not_lt keyFits) long
      · next valueFits =>
        exact .property sides named (Nat.le_of_not_lt keyFits) (Nat.le_of_not_lt valueFits)

/-- Reading a line gives something that it means. -/
theorem means_ofTrimmed (t : List Char) : Means t (ofTrimmed t) := by
  unfold ofTrimmed
  split
  · exact .nothing (Or.inl rfl)
  · exact .nothing (Or.inr (Or.inl rfl))
  · exact .nothing (Or.inr (Or.inr rfl))
  · exact means_ofHeader _
  · next empty hash semicolon bracket =>
    obtain ⟨c, s, rfl⟩ := List.exists_cons_of_ne_nil fun h => empty h
    have loud : ¬ Quiet (c :: s) := by
      rw [quiet_cons]
      rintro (rfl | rfl)
      · exact hash s rfl
      · exact semicolon s rfl
    have plain : ¬ Heading (c :: s) := by
      rw [heading_cons]
      rintro rfl
      exact bracket s rfl
    split
    · next missing => exact .missingEquals loud plain (Text.cut?_eq_none_iff.mp missing)
    · next cut =>
      obtain ⟨written, first⟩ := Text.cut?_eq_some_iff.mp cut
      exact means_ofSides loud plain written first

theorem ofTrimmed_loud (loud : ¬ Quiet t) (plain : ¬ Heading t) :
    ofTrimmed t = match Text.cut? '=' t with
      | none => malformed .missingEquals
      | some (left, right) => ofSides left right := by
  unfold ofTrimmed
  split
  · exact (loud (Or.inl rfl)).elim
  · exact (loud (Or.inr (Or.inl rfl))).elim
  · exact (loud (Or.inr (Or.inr rfl))).elim
  · exact (plain rfl).elim
  · rfl

theorem ofTrimmed_of_sides {key value : String} (h : Sides t key value) :
    ofTrimmed t =
      if key = "" then malformed .emptyKey
      else if maxKeyLength < key.utf8ByteSize then malformed .keyTooLong
      else if maxValueLength < value.utf8ByteSize then malformed .valueTooLong
      else property key value := by
  obtain ⟨loud, plain, left, right, written, first, hkey, hvalue⟩ := h
  have cut := Text.cut?_eq_some_iff.mpr ⟨written, first⟩
  rw [Text.trims_iff] at hkey hvalue
  rw [ofTrimmed_loud loud plain, cut]
  simp only [ofSides, hkey, hvalue, String.ofList_toList]

theorem ofTrimmed_written {pattern : String} (written : t = '[' :: pattern.toList ++ [']']) :
    ofTrimmed t =
      if maxPatternLength < pattern.utf8ByteSize then badHeader .sectionTooLong
      else header pattern := by
  have close : headerPattern? (pattern.toList ++ [']']) = some pattern.toList :=
    headerPattern?_eq_some_iff.mpr rfl
  rw [written]
  simp only [List.cons_append, ofTrimmed, ofHeader, close, String.ofList_toList]

/-- A line means one thing only. -/
theorem ofTrimmed_eq_of_means (h : Means t line) : ofTrimmed t = line := by
  cases h with
  | nothing quiet =>
    rcases quiet with rfl | hash | semicolon
    · rfl
    · obtain ⟨s, rfl⟩ := List.head?_eq_some_iff.mp hash
      rfl
    · obtain ⟨s, rfl⟩ := List.head?_eq_some_iff.mp semicolon
      rfl
  | header written fits => rw [ofTrimmed_written written, if_neg (Nat.not_lt_of_le fits)]
  | sectionTooLong written long => rw [ofTrimmed_written written, if_pos long]
  | unterminated heading opening =>
    obtain ⟨s, rfl⟩ := List.head?_eq_some_iff.mp heading
    have none : headerPattern? s = none := by
      rw [Option.eq_none_iff_forall_ne_some]
      intro inner h
      exact opening inner (congrArg ('[' :: ·) (headerPattern?_eq_some_iff.mp h))
    simp only [ofTrimmed, ofHeader, none]
  | missingEquals loud plain equals =>
    rw [ofTrimmed_loud loud plain, Text.cut?_eq_none_iff.mpr equals]
  | emptyKey sides => rw [ofTrimmed_of_sides sides, if_pos rfl]
  | @keyTooLong key value sides long =>
    have named : key ≠ "" := by
      rintro rfl
      exact absurd long (by decide)
    rw [ofTrimmed_of_sides sides, if_neg named, if_pos long]
  | valueTooLong sides named fits long =>
    rw [ofTrimmed_of_sides sides, if_neg named, if_neg (Nat.not_lt_of_le fits), if_pos long]
  | property sides named keyFits valueFits =>
    rw [ofTrimmed_of_sides sides, if_neg named, if_neg (Nat.not_lt_of_le keyFits),
      if_neg (Nat.not_lt_of_le valueFits)]

theorem reads_iff {s : List Char} : Reads s line ↔ ofText s = line := by
  constructor
  · rintro ⟨t, trims, means⟩
    rw [ofText, Text.trims_iff.mp trims]
    exact ofTrimmed_eq_of_means means
  · rintro rfl
    exact ⟨Text.trim s, Text.trims_trim s, means_ofTrimmed _⟩

end Line

namespace Document

theorem forall₂_reads_iff {pieces : List (List Char)} {lines : List Line} :
    List.Forall₂ Line.Reads pieces lines ↔ lines = pieces.map Line.ofText := by
  have same : Line.Reads = fun s line => Line.ofText s = line := by
    funext s line
    exact propext Line.reads_iff
  rw [same, ← List.forall₂_map_left_iff (f := Line.ofText) (R := Eq), List.forall₂_eq_eq_eq]
  exact eq_comm

/-- A text is written in one way, and the reader finds it. -/
theorem written_iff {content : List Char} {lines : List Line} :
    Written content lines ↔ lines = (Text.lines (Text.dropMark content)).map Line.ofText := by
  simp only [Written, Text.unmarked_iff, Text.cuts_iff, forall₂_reads_iff, exists_and_left,
    exists_eq_left']

end Document

end EditorConfig
