import EditorConfig.Proofs.Document.Writing
import EditorConfig.Proofs.Rules
import EditorConfig.Report
/-!
# Reports that are read again

The lines of a report are lines of a configuration file. Put under a header that applies to every
file they are a document with one section, and its properties are what the report says. So the rules
that a report keeps are the coherent ones.
-/
namespace EditorConfig.Rules
variable {α : Type} {r : Rules} {key : String} {write : α → String} {rule : Option α}

/-- Entries alone, without colors. -/
def entriesOnly : ReportStyle := ⟨false, .off, false⟩

/-- The line of an entry. -/
def assignment (e : String × String) : String := e.1 ++ "=" ++ e.2

/-- The configuration file with the report of the rules for a file. -/
def sheet (r : Rules) (file : Path) : String :=
  "[*]\n" ++ Report.print entriesOnly false ⟨file, r.entries, []⟩

/-- The rules are read back from their report: no line of it is skipped, and its only section
declares them. -/
def Restored (r : Rules) (file : Path) : Prop :=
  ∃ d s, Document.parse (r.sheet file) = .ok d ∧ d.skipped = [] ∧ d.sections = [s] ∧
    ofProperties s.properties = r

/-! ## Entries are written as they are read -/

theorem utf8ByteSize_digits {s : List Char} (h : ∀ c ∈ s, c.isDigit = true) :
    (String.ofList s).utf8ByteSize = s.length := by
  induction s with
  | nil => rfl
  | cons c s ih =>
    rw [List.forall_mem_cons] at h
    have one : c.utf8Size = 1 :=
      beq_iff_eq.mp (of_isDigit (p := fun c => c.utf8Size == 1) (by decide) h.1)
    rw [Text.utf8ByteSize_cons, one, ih h.2, List.length_cons, Nat.add_comm]

theorem writable_decimal (n : UInt32) : Line.WritableValue (toString n.toNat) := by
  have digits : ∀ c ∈ (toString n.toNat).toList, c.isDigit = true := fun _ =>
    isDigit_of_mem_decimal
  have visible : ∀ c ∈ (toString n.toNat).toList, Text.isBlank c = false := fun c hc =>
    Bool.not_eq_true' _ |>.mp (of_isDigit (p := fun c => !Text.isBlank c) (by decide) (digits c hc))
  refine ⟨Line.trims_self ?_ ?_, ?_, ?_⟩
  · exact fun c hc => visible c (List.mem_of_head? hc)
  · exact fun c hc => visible c (List.mem_of_getLast? hc)
  · have short : (Nat.toDigits 10 n.toNat).length ≤ 10 :=
      (Nat.length_toDigits_le_iff (by decide) (by decide)).mpr
        (n.toNat_lt_size.trans (by decide))
    have size := utf8ByteSize_digits digits
    rw [String.ofList_toList, toList_decimal] at size
    exact size ▸ short.trans (by decide)
  · intro c hc
    constructor <;> rintro rfl <;> cases digits _ hc

theorem writable_charset (a : Charset) : Line.WritableValue a.value := by
  cases a <;> decide

theorem writable_endOfLine (a : EndOfLine) : Line.WritableValue a.value := by
  cases a <;> decide

theorem writable_indentStyle (a : IndentStyle) : Line.WritableValue a.value := by
  cases a <;> decide

theorem writable_indentSize : ∀ a : IndentSize, Line.WritableValue a.value
  | .columns n => writable_decimal n
  | .tab => (by decide : Line.WritableValue "tab")

theorem writable_switch (on : Bool) : Line.WritableValue (switchValue on) := by
  cases on <;> decide

theorem writable_keys : ∀ key ∈ keys, Line.WritableKey key := by
  decide +kernel

theorem writable_entry (h : ∀ a, Line.WritableValue (write a)) :
    ∀ e ∈ entry key write rule, Line.WritableValue e.2 := by
  intro e he
  obtain ⟨a, -, rfl⟩ := mem_entry.mp he
  exact h a

/-- The section whose properties are the entries. -/
def asSection (r : Rules) : Section := ⟨"*", .ofList r.entries⟩

theorem entries_asSection (r : Rules) : r.asSection.properties.entries = r.entries :=
  Properties.entries_ofList (nodup_keys_entries r)

theorem writable_asSection (r : Rules) : r.asSection.Writable := by
  have pattern : Line.WritablePattern "*" := by decide
  refine ⟨pattern, ?_, ?_⟩
  · rw [entries_asSection]
    exact fun e he => writable_keys e.1 (mem_keys_of_entry he)
  · rw [entries_asSection]
    simp only [entries, List.forall_mem_append]
    exact ⟨⟨⟨⟨⟨⟨writable_entry writable_charset, writable_entry writable_endOfLine⟩,
      writable_entry writable_indentStyle⟩, writable_entry writable_indentSize⟩,
      writable_entry writable_decimal⟩, writable_entry writable_switch⟩,
      writable_entry writable_switch⟩

/-! ## Reading the sheet -/

theorem sheet_eq_ofWritten (r : Rules) (file : Path) :
    r.sheet file = Document.ofWritten ("[*]" :: r.entries.map assignment) := by
  have lines : Report.lines entriesOnly false ⟨file, r.entries, []⟩ =
      r.entries.map assignment := by
    simp [Report.lines, entriesOnly, Colors.off, assignment]
  have print : Report.print entriesOnly false ⟨file, r.entries, []⟩ =
      Document.ofWritten (r.entries.map assignment) := by
    rw [Report.print, lines, Document.ofWritten]
  rw [sheet, print]
  exact String.toList_inj.mp (by rw [String.toList_append, Document.toList_ofWritten]; rfl)

theorem ofText_assignment {e : String × String} (key : Line.WritableKey e.1)
    (value : Line.WritableValue e.2) :
    Line.ofText (assignment e).toList = .property e.1 e.2 := by
  have text : (assignment e).toList = e.1.toList ++ [] ++ '=' :: ([] ++ e.2.toList) := by
    simp [assignment, String.toList_append]
  rw [text]
  exact Line.ofText_property key value nofun nofun

theorem plain_assignment {e : String × String} (key : Line.WritableKey e.1)
    (value : Line.WritableValue e.2) :
    '\n' ∉ (assignment e).toList ∧ '\x00' ∉ (assignment e).toList := by
  have key := key.inside
  have value := value.inside
  simp only [assignment, String.toList_append, List.mem_append]
  grind

/-- The sheet is read as the section of the entries, with nothing skipped. -/
theorem parse_sheet (r : Rules) (file : Path) :
    Document.parse (r.sheet file) = .ok ⟨false, [r.asSection], []⟩ := by
  have writable := writable_asSection r
  have entry : ∀ e ∈ r.entries, Line.WritableKey e.1 ∧ Line.WritableValue e.2 := by
    rw [← entries_asSection r]
    exact fun e he => ⟨writable.key e he, writable.value e he⟩
  have plain : ∀ w ∈ "[*]" :: r.entries.map assignment, '\n' ∉ w.toList ∧ '\x00' ∉ w.toList :=
    List.forall_mem_cons.mpr ⟨by decide, List.forall_mem_map.mpr fun e he =>
      plain_assignment (entry e he).1 (entry e he).2⟩
  have said : ("[*]" :: r.entries.map assignment).map (fun w => Line.ofText w.toList) =
      Document.said r.asSection := by
    rw [Document.said, entries_asSection, List.map_cons, List.map_map]
    exact congrArg₂ _ (Line.ofText_header writable.pattern) (List.map_congr_left fun e he =>
      ofText_assignment (entry e he).1 (entry e he).2)
  have alone : ∀ s ∈ [r.asSection], s.Writable := by simpa using writable
  have read : Document.ofLines (Document.said r.asSection ++ [.nothing]) =
      ⟨false, [r.asSection], []⟩ := by
    simpa using Document.ofLines_said false alone
  rw [sheet_eq_ofWritten, Document.parse_ofWritten plain (by simp), said, read]

theorem restored_iff {file : Path} : r.Restored file ↔ ofProperties (.ofList r.entries) = r := by
  constructor
  · rintro ⟨d, s, read, -, one, back⟩
    cases (parse_sheet r file).symm.trans read
    cases one
    exact back
  · exact fun back => ⟨_, r.asSection, parse_sheet r file, rfl, rfl, back⟩

/-- Rules come from properties exactly if they are coherent, and exactly then their report gives
them back; their entries and their table agree on which of them are declared. -/
theorem entries_faithful (r : Rules) (file : Path) :
    ((∃ p, ofProperties p = r) ↔ r.Coherent) ∧ (r.Coherent ↔ r.Restored file) ∧
      (r.isUnset = true ↔ r.entries = []) ∧
      (r.entries = [] ↔ ∀ line ∈ Text.lines r.describe.toList, "unset".toList <:+ line) ∧
      (∀ e ∈ r.entries, e.1 ∈ keys) ∧
      List.Forall₂ r.Row keys (Text.lines r.describe.toList) := by
  refine ⟨⟨?_, ?_⟩, ⟨?_, ?_⟩, isUnset_iff, entries_eq_nil_iff, fun e => mem_keys_of_entry,
    rows_describe r⟩
  · rintro ⟨p, rfl⟩
    exact coherent_ofProperties p
  · exact fun h => ⟨_, ofProperties_entries h⟩
  · exact fun h => restored_iff.mpr (ofProperties_entries h)
  · exact fun h => restored_iff.mp h ▸ coherent_ofProperties _

end EditorConfig.Rules
