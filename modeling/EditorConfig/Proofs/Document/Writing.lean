import EditorConfig.Proofs.Document.Blocks
/-!
# Writing a document

A document whose patterns, keys and values keep to the limits of the format can be written down, and
reading the text gives the document back with nothing skipped. Patterns may hold brackets, equals
signs and blanks, and values may be empty or hold brackets and equals signs, so it is the beginning
and the end of a line that tell its kind.
-/
namespace EditorConfig

namespace Line

/-- Whether a line stands for itself. -/
def isAccepted : Line → Bool
  | badHeader _ | malformed _ => false
  | _ => true

/-- A key that is read as it is written. -/
structure WritableKey (key : String) : Prop where
  named : key ≠ ""
  trimmed : Text.Trims key.toList key.toList
  lower : Text.lowercase key = key
  fits : key.utf8ByteSize ≤ maxKeyLength
  inside : ∀ c ∈ key.toList, c ≠ '=' ∧ c ≠ '\n' ∧ c ≠ '\x00'
  first : ∀ c, key.toList.head? = some c → c ≠ '[' ∧ c ≠ '#' ∧ c ≠ ';'

/-- A value that is read as it is written. -/
structure WritableValue (value : String) : Prop where
  trimmed : Text.Trims value.toList value.toList
  fits : value.utf8ByteSize ≤ maxValueLength
  inside : ∀ c ∈ value.toList, c ≠ '\n' ∧ c ≠ '\x00'

/-- A pattern that is read as it is written. -/
structure WritablePattern (pattern : String) : Prop where
  fits : pattern.utf8ByteSize ≤ maxPatternLength
  inside : ∀ c ∈ pattern.toList, c ≠ '\n' ∧ c ≠ '\x00'

instance (key : String) : Decidable (WritableKey key) :=
  decidable_of_iff (key ≠ "" ∧ Text.trim key.toList = key.toList ∧ Text.lowercase key = key ∧
      key.utf8ByteSize ≤ maxKeyLength ∧
      key.toList.all (fun c => c != '=' && c != '\n' && c != '\x00') = true ∧
      key.toList.head?.all (fun c => c != '[' && c != '#' && c != ';') = true)
    ⟨fun ⟨named, trimmed, lower, fits, inside, first⟩ =>
      ⟨named, Text.trims_iff.mpr trimmed, lower, fits, by simpa [and_assoc] using inside,
        by simpa [and_assoc, Option.all_eq_true] using first⟩,
    fun ⟨named, trimmed, lower, fits, inside, first⟩ =>
      ⟨named, Text.trims_iff.mp trimmed, lower, fits, by simpa [and_assoc] using inside,
        by simpa [and_assoc, Option.all_eq_true] using first⟩⟩

instance (value : String) : Decidable (WritableValue value) :=
  decidable_of_iff (Text.trim value.toList = value.toList ∧ value.utf8ByteSize ≤ maxValueLength ∧
      value.toList.all (fun c => c != '\n' && c != '\x00') = true)
    ⟨fun ⟨trimmed, fits, inside⟩ => ⟨Text.trims_iff.mpr trimmed, fits, by simpa using inside⟩,
    fun ⟨trimmed, fits, inside⟩ => ⟨Text.trims_iff.mp trimmed, fits, by simpa using inside⟩⟩

instance (pattern : String) : Decidable (WritablePattern pattern) :=
  decidable_of_iff (pattern.utf8ByteSize ≤ maxPatternLength ∧
      pattern.toList.all (fun c => c != '\n' && c != '\x00') = true)
    ⟨fun ⟨fits, inside⟩ => ⟨fits, by simpa using inside⟩,
    fun ⟨fits, inside⟩ => ⟨fits, by simpa using inside⟩⟩

end Line

/-- A section whose pattern, keys and values are read as they are written. -/
structure Section.Writable (s : Section) : Prop where
  pattern : Line.WritablePattern s.pattern
  key : ∀ e ∈ s.properties.entries, Line.WritableKey e.1
  value : ∀ e ∈ s.properties.entries, Line.WritableValue e.2

instance (s : Section) : Decidable s.Writable :=
  decidable_of_iff (Line.WritablePattern s.pattern ∧
      (∀ e ∈ s.properties.entries, Line.WritableKey e.1) ∧
      ∀ e ∈ s.properties.entries, Line.WritableValue e.2)
    ⟨fun ⟨pattern, key, value⟩ => ⟨pattern, key, value⟩,
    fun ⟨pattern, key, value⟩ => ⟨pattern, key, value⟩⟩

/-- The lines of a section, its header first. -/
def Section.written (s : Section) : List String :=
  ("[" ++ s.pattern ++ "]") :: s.properties.entries.map fun (key, value) => key ++ " = " ++ value

namespace Document

/-- The text with some lines, each of them ended. -/
def ofWritten (lines : List String) : String := String.join (lines.map (· ++ "\n"))

/-- The text of a document. -/
def write (isRoot : Bool) (sections : List Section) : String :=
  ofWritten ((if isRoot then ["root = true"] else []) ++ sections.flatMap Section.written)

end Document

namespace Line

/-! ## Lines -/

theorem trims_self {s : List Char} (starts : ∀ c, s.head? = some c → Text.isBlank c = false)
    (ends : ∀ c, s.getLast? = some c → Text.isBlank c = false) : Text.Trims s s :=
  ⟨⟨[], [], by simp, by simp, by simp⟩, starts, ends⟩

theorem ofText_header {pattern : String} (h : WritablePattern pattern) :
    ofText ("[" ++ pattern ++ "]").toList = .header pattern := by
  have text : ("[" ++ pattern ++ "]").toList = '[' :: pattern.toList ++ [']'] := by
    simp [String.toList_append]
  have trims : Text.Trims ("[" ++ pattern ++ "]").toList ('[' :: pattern.toList ++ [']']) := by
    rw [text]
    refine trims_self ?_ ?_
    · intro c hc
      obtain rfl : '[' = c := by simpa using hc
      decide
    · intro c hc
      rw [List.getLast?_concat, Option.some_inj] at hc
      exact hc ▸ by decide
  exact reads_iff.mp ⟨_, trims, .header rfl h.fits⟩

/-- What stands in front of the equals sign of a written property is its key. -/
theorem trims_left {key : String} {front : List Char} (h : WritableKey key)
    (blank : ∀ c ∈ front, Text.isBlank c = true) :
    Text.Trims (key.toList ++ front) key.toList :=
  ⟨⟨[], front, by simp, by simp, blank⟩, h.trimmed.starts, h.trimmed.ends⟩

theorem trims_right {value : String} {back : List Char} (h : WritableValue value)
    (blank : ∀ c ∈ back, Text.isBlank c = true) :
    Text.Trims (back ++ value.toList) value.toList :=
  ⟨⟨back, [], by simp, blank, by simp⟩, h.trimmed.starts, h.trimmed.ends⟩

/-- Blank characters around the equals sign do not count; behind it they are at the end of the line
if the value is empty. -/
theorem ofText_property {key value : String} {front back : List Char} (hkey : WritableKey key)
    (hvalue : WritableValue value) (hfront : ∀ c ∈ front, Text.isBlank c = true)
    (hback : ∀ c ∈ back, Text.isBlank c = true) :
    ofText (key.toList ++ front ++ '=' :: (back ++ value.toList)) = .property key value := by
  obtain ⟨first, others, hfirst⟩ : ∃ c s, key.toList = c :: s :=
    List.exists_cons_of_ne_nil fun he => hkey.named (String.toList_inj.mp he)
  have starts : key.toList.head? = some first := by rw [hfirst]; rfl
  obtain ⟨bracket, hash, semicolon⟩ := hkey.first first starts
  -- The line without blanks around it still has the key in front of its first equals sign.
  have property : ∀ right, Text.Trims right value.toList →
      Means (key.toList ++ front ++ '=' :: right) (.property key value) := by
    intro right trims
    have loud : ¬ Quiet (key.toList ++ front ++ '=' :: right) := by
      simp [Quiet, hfirst, hash, semicolon]
    have plain : ¬ Heading (key.toList ++ front ++ '=' :: right) := by
      simp [Heading, hfirst, bracket]
    have equals : '=' ∉ key.toList ++ front := by
      rw [List.mem_append, not_or]
      refine ⟨fun h => (hkey.inside '=' h).1 rfl, fun h => ?_⟩
      have := hfront '=' h
      revert this
      decide
    exact .property ⟨loud, plain, _, right, rfl, equals, trims_left hkey hfront, trims⟩
      hkey.named hkey.fits hvalue.fits
  have head : ∀ right c, (key.toList ++ front ++ '=' :: right).head? = some c →
      Text.isBlank c = false := by
    intro right c hc
    refine hkey.trimmed.starts c ?_
    simpa [hfirst] using hc
  refine reads_iff.mp ?_
  by_cases empty : value = ""
  · subst empty
    refine ⟨key.toList ++ front ++ ['='], ⟨⟨[], back, by simp, by simp, hback⟩, head [], ?_⟩,
      property [] ⟨⟨[], [], rfl, by simp, by simp⟩, by simp, by simp⟩⟩
    intro c hc
    rw [List.getLast?_concat, Option.some_inj] at hc
    exact hc ▸ by decide
  · have named : value.toList ≠ [] := fun he => empty (String.toList_inj.mp he)
    refine ⟨_, trims_self (head _) ?_, property _ (trims_right hvalue hback)⟩
    intro c hc
    refine hvalue.trimmed.ends c ?_
    rw [List.getLast?_append, List.getLast?_cons, List.getLast?_append] at hc
    rw [List.getLast?_eq_some_getLast named] at hc ⊢
    simpa using hc

end Line

namespace Document
variable {lines rest : List Line} {written : List String}

/-! ## Documents of lines that are all accepted -/

/-- The lines of a section that was read. -/
def said (s : Section) : List Line :=
  .header s.pattern :: s.properties.entries.map fun (key, value) => .property key value

theorem skipped_eq_nil (accepted : ∀ line ∈ lines, line.isAccepted = true) :
    (ofLines lines).skipped = [] := by
  rw [List.eq_nil_iff_forall_not_mem]
  rintro ⟨number, reason⟩ h
  obtain ⟨above, line, below, rfl, -, skips⟩ := ((saidBy_ofLines lines).skipped number reason).mp h
  have here := accepted line (by simp)
  cases skips with
  | badHeader => cases here
  | malformed => cases here
  | orphan rejected =>
    have header := (List.mem_filter.mp (List.mem_of_getLast? rejected)).1
    cases accepted _ (List.mem_append_left _ header)

theorem isAccepted_said (s : Section) : ∀ line ∈ said s, line.isAccepted = true :=
  List.forall_mem_cons.mpr ⟨rfl, List.forall_mem_map.mpr fun _ _ => rfl⟩

theorem still_said : ∀ sections : List Section, Still (sections.flatMap said ++ [.nothing])
  | [] => still_nothing
  | _ :: _ => still_of_header rfl

theorem pairs_said {s : Section} (h : s.Writable) :
    (block (s.properties.entries.map fun (key, value) => Line.property key value)).filterMap
      Line.pair? = s.properties.entries := by
  have body : ∀ entries : List (String × String),
      block (entries.map fun (key, value) => Line.property key value) =
        entries.map fun (key, value) => Line.property key value := by
    intro entries
    rw [block, List.takeWhile_eq_self_iff]
    exact List.forall_mem_map.mpr fun _ _ => rfl
  rw [body, List.filterMap_map]
  -- A written key is the one that its line sets.
  have same : ∀ e ∈ s.properties.entries,
      (Line.pair? ∘ fun (key, value) => Line.property key value) e = some e := by
    rintro ⟨key, value⟩ he
    have lower : Text.lowercase key = key := (h.key _ he).lower
    simp [Line.pair?, lower]
  rw [List.filterMap_congr same, List.filterMap_some]

theorem sectionsOf_said {sections : List Section} (h : ∀ s ∈ sections, s.Writable) :
    sectionsOf (sections.flatMap said ++ [.nothing]) = sections := by
  induction sections with
  | nil => rfl
  | cons s others ih =>
    rw [List.forall_mem_cons] at h
    have still := still_said others
    have quiet : ∀ line ∈ s.properties.entries.map (fun (key, value) => Line.property key value),
        line.isHeader = false := List.forall_mem_map.mpr fun _ _ => rfl
    rw [List.flatMap_cons, List.append_assoc, said, List.cons_append, sectionsOf_header,
      filterMap_block_append rfl still, pairs_said h.1, Properties.ofList_entries,
      sectionsOf_append still, sectionsOf_body quiet, List.nil_append, ih h.2]

theorem ofLines_said (isRoot : Bool) {sections : List Section} (h : ∀ s ∈ sections, s.Writable) :
    ofLines ((if isRoot then [.property "root" "true"] else []) ++
      (sections.flatMap said ++ [.nothing])) = ⟨isRoot, sections, []⟩ := by
  generalize hlines : (if isRoot then [.property "root" "true"] else []) ++
    (sections.flatMap said ++ [Line.nothing]) = lines
  have read := saidBy_ofLines lines
  have still := still_said sections
  have root : (ofLines lines).isRoot = isRoot := by
    rw [read.isRoot, ← hlines, rootOf_append still]
    cases isRoot <;> decide
  have all : (ofLines lines).sections = sections := by
    rw [read.sections, ← hlines, sectionsOf_append still, sectionsOf_said h]
    cases isRoot <;> rfl
  have nothing : (ofLines lines).skipped = [] := by
    apply skipped_eq_nil
    rw [← hlines, List.forall_mem_append, List.forall_mem_append]
    refine ⟨by cases isRoot <;> decide, ?_, by decide⟩
    intro line hline
    obtain ⟨s, -, hs⟩ := List.mem_flatMap.mp hline
    exact isAccepted_said s line hs
  exact (Document.mk.injEq ..).mpr ⟨root, all, nothing⟩

/-! ## Texts of ended lines -/

theorem toList_ofWritten (w : String) (others : List String) :
    (ofWritten (w :: others)).toList = w.toList ++ '\n' :: (ofWritten others).toList := by
  simp [ofWritten, String.toList_append]

theorem lines_ofWritten (h : ∀ w ∈ written, '\n' ∉ w.toList) :
    Text.lines (ofWritten written).toList = written.map String.toList ++ [[]] := by
  induction written with
  | nil => rfl
  | cons w others ih =>
    rw [List.forall_mem_cons] at h
    rw [toList_ofWritten, Text.lines, List.splitOn_append_cons_self,
      List.splitOn_eq_singleton h.1, ← Text.lines, ih h.2]
    rfl

theorem nul_not_mem_ofWritten (h : ∀ w ∈ written, '\x00' ∉ w.toList) :
    '\x00' ∉ (ofWritten written).toList := by
  induction written with
  | nil => exact List.not_mem_nil
  | cons w others ih =>
    rw [List.forall_mem_cons] at h
    rw [toList_ofWritten, List.mem_append, List.mem_cons, not_or, not_or]
    exact ⟨h.1, by decide, ih h.2⟩

/-- A text of ended lines has those lines and an empty one behind them. -/
theorem parse_ofWritten (plain : ∀ w ∈ written, '\n' ∉ w.toList ∧ '\x00' ∉ w.toList)
    (unmarked : ∀ w, written.head? = some w → w.toList.head? ≠ some '\uFEFF') :
    parse (ofWritten written) =
      .ok (ofLines (written.map (fun w => Line.ofText w.toList) ++ [.nothing])) := by
  have marked : Text.Unmarked (ofWritten written).toList (ofWritten written).toList := by
    refine .inr ⟨rfl, ?_⟩
    cases written with
    | nil => exact nofun
    | cons w others =>
      rw [toList_ofWritten]
      intro he
      cases hw : w.toList with
      | nil => simp [hw] at he
      | cons c s => exact unmarked w rfl (by simpa [hw] using he)
  rw [parse_eq_ofLines (nul_not_mem_ofWritten fun w hw => (plain w hw).2) marked,
    lines_ofWritten fun w hw => (plain w hw).1, List.map_append, List.map_map]
  rfl

/-! ## Writing and reading -/

theorem ofText_written {s : Section} (h : s.Writable) :
    s.written.map (fun w => Line.ofText w.toList) = said s := by
  unfold Section.written said
  rw [List.map_cons, List.map_map, Line.ofText_header h.pattern]
  refine congrArg _ (List.map_congr_left ?_)
  rintro ⟨key, value⟩ he
  have text : (key ++ " = " ++ value).toList =
      key.toList ++ [' '] ++ '=' :: ([' '] ++ value.toList) := by
    simp [String.toList_append]
  have blank : ∀ c ∈ [' '], Text.isBlank c = true := List.forall_mem_singleton.mpr rfl
  simp only [Function.comp_apply, text]
  exact Line.ofText_property (h.key _ he) (h.value _ he) blank blank

theorem plain_written {s : Section} (h : s.Writable) :
    ∀ w ∈ s.written, '\n' ∉ w.toList ∧ '\x00' ∉ w.toList := by
  have key : ∀ e ∈ s.properties.entries, '\n' ∉ e.1.toList ∧ '\x00' ∉ e.1.toList :=
    fun e he => ⟨fun hc => ((h.key e he).inside _ hc).2.1 rfl,
      fun hc => ((h.key e he).inside _ hc).2.2 rfl⟩
  have value : ∀ e ∈ s.properties.entries, '\n' ∉ e.2.toList ∧ '\x00' ∉ e.2.toList :=
    fun e he => ⟨fun hc => ((h.value e he).inside _ hc).1 rfl,
      fun hc => ((h.value e he).inside _ hc).2 rfl⟩
  refine List.forall_mem_cons.mpr ⟨?_, List.forall_mem_map.mpr ?_⟩
  · have pattern := h.pattern.inside
    simp only [String.toList_append, List.mem_append]
    grind
  · intro e he
    have := key e he
    have := value e he
    simp only [String.toList_append, List.mem_append]
    grind

/-- Reading a written document gives it back, with nothing skipped. -/
theorem parse_write (isRoot : Bool) (sections : List Section) (h : ∀ s ∈ sections, s.Writable) :
    parse (write isRoot sections) = .ok ⟨isRoot, sections, []⟩ := by
  have plain : ∀ w ∈ (if isRoot then ["root = true"] else []) ++ sections.flatMap Section.written,
      '\n' ∉ w.toList ∧ '\x00' ∉ w.toList := by
    rw [List.forall_mem_append]
    refine ⟨by cases isRoot <;> decide, ?_⟩
    intro w hw
    obtain ⟨s, hs, hw⟩ := List.mem_flatMap.mp hw
    exact plain_written (h s hs) w hw
  have unmarked : ∀ w, ((if isRoot then ["root = true"] else []) ++
      sections.flatMap Section.written).head? = some w → w.toList.head? ≠ some '\uFEFF' := by
    intro w hw
    cases isRoot with
    | true =>
      obtain rfl : "root = true" = w := by simpa using hw
      decide
    | false =>
      cases sections with
      | nil => cases hw
      | cons s others =>
        obtain rfl : "[" ++ s.pattern ++ "]" = w := by simpa [Section.written] using hw
        simp [String.toList_append]
  have said : sections.flatMap (fun s => s.written.map fun w => Line.ofText w.toList) =
      sections.flatMap said := List.flatMap_congr fun s hs => ofText_written (h s hs)
  have root : (if isRoot then ["root = true"] else []).map (fun w => Line.ofText w.toList) =
      if isRoot then [.property "root" "true"] else [] := by
    cases isRoot <;> decide
  rw [write, parse_ofWritten plain unmarked, List.map_append, root, List.map_flatMap, said,
    List.append_assoc, ofLines_said isRoot h]

/-- Brackets and separators where they do not count, an empty pattern and an empty value, a carriage
return inside a value and a key beyond ASCII. -/
def tricky : List Section :=
  [⟨" a]=#b ", .ofList [("root", ""), ("k[x", "=[#;"), ("ключ", "a\rb")]⟩, ⟨"", .empty⟩]

theorem parse_write_tricky :
    (∀ s ∈ tricky, s.Writable) ∧
      write true tricky = "root = true\n[ a]=#b ]\nroot = \nk[x = =[#;\nключ = a\rb\n[]\n" ∧
      parse (write true tricky) = .ok ⟨true, tricky, []⟩ := by
  have writable : ∀ s ∈ tricky, s.Writable := by decide +kernel
  exact ⟨writable, by decide +kernel, parse_write true tricky writable⟩

end Document

end EditorConfig
