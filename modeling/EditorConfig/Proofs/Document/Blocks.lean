import EditorConfig.Glob
import EditorConfig.Proofs.Document.Reading
/-!
# Taking a block out of a document

A block is an accepted header with the lines below it, up to the next line that begins like a
header. Taken out of a text as it is written, it takes its own section out of the document and
nothing else: the lines above keep what they say, and so do the lines from the next header on.
-/
namespace EditorConfig

/-- A line whose first character that is not blank opens a header. -/
def Line.Opens (s : List Char) : Prop := ∃ t, Text.Trims s t ∧ Heading t

namespace Document

/-- A text that ends with the end of a line. -/
def EndsLine (s : List Char) : Prop := ∃ front, s = front ++ ['\n']

/-- A text whose first line opens a header. -/
def BeginsHeader (s : List Char) : Prop :=
  ∃ first others, Text.Cuts s (first :: others) ∧ Line.Opens first

/-- An accepted header and lines below it that open none. -/
def IsBlock (pattern : String) (block : List Char) : Prop :=
  ∃ header body, Text.Cuts block (header :: body) ∧ Line.Reads header (.header pattern) ∧
    ∀ line ∈ body, ¬ Line.Opens line

/-- A text and what is left of it without the whole block of a section whose pattern does not
compile. -/
inductive DropsBlock [Glob.Engine] (limit : Nat) : List Char → List Char → Prop
  | drop {above block below : List Char} {pattern : String} {e : Glob.CompileError}
      (start : above = [] ∨ EndsLine above) (isBlock : IsBlock pattern block)
      (stop : below = [] ∨ EndsLine block ∧ BeginsHeader below)
      (broken : Glob.compile pattern limit = .error e) :
      DropsBlock limit (above ++ (block ++ below)) (above ++ below)

/-- `text` holds no NUL character, and `text'` is what is left of it without a section whose pattern
does not compile. A byte order mark in front may stay or go. -/
def DropsSection [Glob.Engine] (limit : Nat) (text text' : String) : Prop :=
  '\x00' ∉ text.toList ∧ ∃ s s', Text.Unmarked text.toList s ∧ Text.Unmarked text'.toList s' ∧
    DropsBlock limit s s'

end Document

namespace Line

theorem isHeader_of_means {t : List Char} {line : Line} (h : Means t line) :
    line.isHeader = true ↔ Heading t := by
  cases h with
  | nothing quiet =>
    have plain : ¬ Heading t := by
      intro heading
      rcases quiet with rfl | hash | semicolon
      · cases heading
      · exact absurd (hash.symm.trans heading) (by decide)
      · exact absurd (semicolon.symm.trans heading) (by decide)
    simp [isHeader, plain]
  | header written => simp [isHeader, Heading, written]
  | unterminated heading => exact ⟨fun _ => heading, fun _ => rfl⟩
  | sectionTooLong written => simp [isHeader, Heading, written]
  | missingEquals loud plain => simp [isHeader, plain]
  | emptyKey sides | keyTooLong sides | valueTooLong sides | property sides =>
    simp [isHeader, sides.2.1]

theorem opens_iff {s : List Char} : Opens s ↔ Heading (Text.trim s) := by
  simp [Opens, Text.trims_iff]

/-- The lines that are read as headers, accepted or not, are those that open one. -/
theorem isHeader_ofText (s : List Char) : (ofText s).isHeader = true ↔ Opens s := by
  rw [ofText, isHeader_of_means (means_ofTrimmed (Text.trim s))]
  constructor
  · intro heading
    exact ⟨_, Text.trims_trim s, heading⟩
  · rintro ⟨t, trims, heading⟩
    rw [Text.trims_iff.mp trims]
    exact heading

end Line

namespace Document
variable {limit : Nat} {above below body rest : List Line} {line : Line}

/-! ## Blocks of lines -/

/-- Lines that the block above them can take in without a change: only ones that say nothing come
before the next header. -/
def Still (lines : List Line) : Prop := ∀ line ∈ block lines, line = .nothing

theorem still_nothing : Still [.nothing] := by
  intro line h
  exact List.mem_singleton.mp h

theorem still_of_header (h : line.isHeader = true) : Still (line :: rest) := by
  rw [Still, block_of_header h]
  exact fun _ h => absurd h List.not_mem_nil

theorem filterMap_block_append {α : Type} {f : Line → Option α} (hf : f .nothing = none)
    (h : Still below) :
    (block (above ++ below)).filterMap f = (block above).filterMap f := by
  induction above with
  | nil =>
    refine List.filterMap_eq_nil_iff.mpr ?_
    intro line hline
    rw [h line hline, hf]
  | cons line above ih =>
    by_cases hline : line.isHeader = true
    · rw [List.cons_append, block_of_header hline, block_of_header hline]
    · rw [List.cons_append, block_of_other (by simpa using hline),
        block_of_other (by simpa using hline), List.filterMap_cons, List.filterMap_cons, ih]

theorem rootOf_append (h : Still below) : rootOf (above ++ below) = rootOf above := by
  rw [rootOf, filterMap_block_append rfl h, rootOf]

theorem sectionsOf_append (h : Still below) :
    sectionsOf (above ++ below) = sectionsOf above ++ sectionsOf below := by
  induction above with
  | nil => rfl
  | cons line above ih =>
    cases line with
    | header pattern =>
      rw [List.cons_append, sectionsOf_header, sectionsOf_header, filterMap_block_append rfl h, ih]
      rfl
    | nothing | badHeader reason | property key value | malformed reason =>
      rw [List.cons_append, sectionsOf_other rfl, sectionsOf_other rfl, ih]

theorem sectionsOf_body (h : ∀ line ∈ body, line.isHeader = false) : sectionsOf body = [] := by
  induction body with
  | nil => rfl
  | cons line body ih =>
    rw [List.forall_mem_cons] at h
    cases line with
    | header pattern => cases h.1
    | nothing | badHeader reason | property key value | malformed reason =>
      rw [sectionsOf_other rfl, ih h.2]

/-! ## Blocks of a text -/

theorem exists_lines_append {s : List Char} (h : s = [] ∨ EndsLine s) :
    ∃ front, ∀ t, Text.lines (s ++ t) = front ++ Text.lines t := by
  rcases h with rfl | ⟨front, rfl⟩
  · exact ⟨[], fun t => rfl⟩
  · refine ⟨Text.lines front, fun t => ?_⟩
    rw [List.append_assoc, List.singleton_append]
    exact List.splitOn_append_cons_self front t

theorem still_of_beginsHeader {s : List Char} (h : BeginsHeader s) :
    Still ((Text.lines s).map Line.ofText) := by
  obtain ⟨first, others, cuts, opens⟩ := h
  rw [Text.cuts_iff.mp cuts, List.map_cons]
  exact still_of_header ((Line.isHeader_ofText first).mpr opens)

/-- The lines of a block come before those of what stands below it. Where nothing does, the empty
text that is left below would count as a blank line. -/
theorem exists_lines_block {pattern : String} {block below : List Char}
    (isBlock : IsBlock pattern block) (stop : below = [] ∨ EndsLine block ∧ BeginsHeader below) :
    ∃ body rest, (∀ line ∈ body, line.isHeader = false) ∧ Still rest ∧
      sectionsOf rest = sectionsOf ((Text.lines below).map Line.ofText) ∧
      (Text.lines (block ++ below)).map Line.ofText = .header pattern :: (body ++ rest) := by
  obtain ⟨header, text, cuts, reads, quiet⟩ := isBlock
  have blockLines : Text.lines block = header :: text := Text.cuts_iff.mp cuts
  have first : Line.ofText header = .header pattern := Line.reads_iff.mp reads
  have others : ∀ line ∈ text, (Line.ofText line).isHeader = false := by
    intro line hline
    rw [Bool.eq_false_iff, ne_eq, Line.isHeader_ofText]
    exact quiet line hline
  rcases stop with rfl | ⟨⟨front, rfl⟩, begins⟩
  · refine ⟨text.map Line.ofText, [], List.forall_mem_map.mpr others, nofun, rfl, ?_⟩
    rw [List.append_nil, List.append_nil, blockLines, List.map_cons, first]
  · -- The piece behind the last line feed of the block is the first line below it.
    have cut : Text.lines front ++ [[]] = header :: text := by
      rw [← blockLines]
      exact (List.splitOn_append_cons_self front []).symm
    obtain ⟨top, inner, hfront⟩ := List.exists_cons_of_ne_nil (List.splitOn_ne_nil '\n' front)
    rw [Text.lines, hfront] at cut
    obtain ⟨rfl, rfl⟩ := List.cons.inj cut
    have whole : Text.lines (front ++ ['\n'] ++ below) = top :: (inner ++ Text.lines below) := by
      rw [List.append_assoc, List.singleton_append, Text.lines, List.splitOn_append_cons_self,
        hfront]
      rfl
    have innerOthers : ∀ line ∈ inner, (Line.ofText line).isHeader = false :=
      fun line hline => others line (List.mem_append_left _ hline)
    refine ⟨inner.map Line.ofText, (Text.lines below).map Line.ofText,
      List.forall_mem_map.mpr innerOthers, still_of_beginsHeader begins, rfl, ?_⟩
    rw [whole, List.map_cons, List.map_append, first]

theorem still_below {block below : List Char}
    (stop : below = [] ∨ EndsLine block ∧ BeginsHeader below) :
    Still ((Text.lines below).map Line.ofText) := by
  rcases stop with rfl | ⟨-, begins⟩
  · exact still_nothing
  · exact still_of_beginsHeader begins

/-- A text loses the section of the block that is taken out, and nothing else that counts. -/
theorem said_of_dropsBlock [Glob.Engine] {s s' : List Char} (h : DropsBlock limit s s') :
    ∃ (before after : List Section) (dead : Section) (e : Glob.CompileError),
      Glob.compile dead.pattern limit = .error e ∧
      sectionsOf ((Text.lines s).map Line.ofText) = before ++ dead :: after ∧
      sectionsOf ((Text.lines s').map Line.ofText) = before ++ after ∧
      rootOf ((Text.lines s).map Line.ofText) = rootOf ((Text.lines s').map Line.ofText) := by
  cases h with
  | @drop above block below pattern e start isBlock stop broken =>
    obtain ⟨front, hfront⟩ := exists_lines_append start
    obtain ⟨body, rest, quiet, still, same, whole⟩ := exists_lines_block isBlock stop
    have header : Still (.header pattern :: (body ++ rest)) := still_of_header rfl
    let dead : Section := ⟨pattern, .ofList ((Document.block (body ++ rest)).filterMap Line.pair?)⟩
    refine ⟨sectionsOf (front.map Line.ofText), sectionsOf rest, dead, e, broken, ?_, ?_, ?_⟩
    · rw [hfront, List.map_append, whole, sectionsOf_append header, sectionsOf_header,
        sectionsOf_append still, sectionsOf_body quiet, List.nil_append]
    · rw [hfront, List.map_append, sectionsOf_append (still_below stop), same]
    · rw [hfront, hfront, List.map_append, List.map_append, whole, rootOf_append header,
        rootOf_append (still_below stop)]

/-! ## Documents -/

theorem parse_eq_ofLines {text : String} {s : List Char} (hnul : '\x00' ∉ text.toList)
    (marked : Text.Unmarked text.toList s) :
    parse text = .ok (ofLines ((Text.lines s).map Line.ofText)) := by
  rw [parse_of_no_nul hnul, Text.unmarked_iff.mp marked]

theorem nul_mem_of_unmarked {s t : List Char} (h : Text.Unmarked s t) :
    '\x00' ∈ s ↔ '\x00' ∈ t := by
  rcases h with rfl | ⟨rfl, -⟩
  · simp
  · rfl

/-- Without the section the document still reads, says the same of `root`, and has all its other
sections in their order. -/
theorem parse_of_dropsSection [Glob.Engine] {text text' : String}
    (h : DropsSection limit text text') :
    ∃ (d d' : Document) (before after : List Section) (dead : Section) (e : Glob.CompileError),
      parse text = .ok d ∧ parse text' = .ok d' ∧ d'.isRoot = d.isRoot ∧
      Glob.compile dead.pattern limit = .error e ∧ d.sections = before ++ dead :: after ∧
      d'.sections = before ++ after := by
  obtain ⟨hnul, s, s', marked, marked', drops⟩ := h
  have hnul' : '\x00' ∉ text'.toList := by
    rw [nul_mem_of_unmarked marked']
    rw [nul_mem_of_unmarked marked] at hnul
    intro hmem
    cases drops with
    | drop =>
      apply hnul
      rcases List.mem_append.mp hmem with h | h <;> simp [h]
  obtain ⟨before, after, dead, e, broken, whole, left, root⟩ := said_of_dropsBlock drops
  have said := saidBy_ofLines ((Text.lines s).map Line.ofText)
  have said' := saidBy_ofLines ((Text.lines s').map Line.ofText)
  refine ⟨_, _, before, after, dead, e, parse_eq_ofLines hnul marked,
    parse_eq_ofLines hnul' marked', ?_, broken, ?_, ?_⟩
  · rw [said.isRoot, said'.isRoot, root]
  · rw [said.sections, whole]
  · rw [said'.sections, left]

end Document

end EditorConfig
