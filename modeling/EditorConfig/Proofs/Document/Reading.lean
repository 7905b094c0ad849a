import EditorConfig.Proofs.Document.Grammar
import EditorConfig.Proofs.Properties
import Mathlib.Data.List.Sort
/-!
# Reading a document

The reader goes through the lines once and keeps only the part of the document that the next line
belongs to, while the grammar looks up to the nearest header and down to the next one. Each part of
what is read is followed from an arbitrary state of the reader: lines up to the next header go on
with what was begun, the others make up sections of their own.
-/
namespace EditorConfig

namespace Document

variable {line : Line} {above lines rest : List Line}

/-! ## The grammar, line by line -/

@[simp] theorem block_nil : block [] = [] := rfl

theorem block_of_header (h : line.isHeader = true) : block (line :: rest) = [] := by
  simp [block, h]

theorem block_of_other (h : line.isHeader = false) : block (line :: rest) = line :: block rest := by
  simp [block, h]

@[simp] theorem sectionsOf_nil : sectionsOf [] = [] := rfl

theorem sectionsOf_header (pattern : String) (rest : List Line) :
    sectionsOf (.header pattern :: rest) =
      ⟨pattern, .ofList ((block rest).filterMap Line.pair?)⟩ :: sectionsOf rest := by
  simp [sectionsOf, section?]

theorem sectionsOf_other (h : section? (line :: rest) = none) :
    sectionsOf (line :: rest) = sectionsOf rest := by
  simp [sectionsOf, h]

/-- The part of a document that lines stand in, below other lines of a given part. -/
def scopeBelow (scope : Scope) (above : List Line) : Scope :=
  match headerAbove? above with
  | none => scope
  | some (.header _) => .sectionBody
  | some _ => .discarding

theorem headerAbove?_cons :
    headerAbove? (line :: above) =
      (headerAbove? above).or (if line.isHeader then some line else none) := by
  unfold headerAbove?
  by_cases h : line.isHeader = true
  · rw [List.filter_cons_of_pos h, List.getLast?_cons, if_pos h]
    cases (above.filter Line.isHeader).getLast? <;> rfl
  · rw [List.filter_cons_of_neg h, if_neg h, Option.or_none]

theorem isHeader_of_headerAbove? (h : headerAbove? above = some line) : line.isHeader = true :=
  (List.mem_filter.mp (List.mem_of_getLast? h)).2

/-! ## What a reader has read -/

namespace Reading

theorem nextAll_append (r : Reading) (n : Nat) (above below : List Line) :
    r.nextAll n (above ++ below) = (r.nextAll n above).nextAll (n + above.length) below := by
  induction above generalizing r n with
  | nil => rfl
  | cons line above ih =>
    rw [List.cons_append, nextAll, ih, nextAll, List.length_cons, Nat.add_right_comm, Nat.add_assoc]

/-- The sections read so far when the last one is given the properties of further lines. -/
def filled (r : Reading) (lines : List Line) : List Section :=
  match r.scope, r.sections with
  | .sectionBody, s :: others =>
    { s with properties := s.properties.insertMany (lines.filterMap Line.pair?) } :: others
  | _, sections => sections

theorem filled_nil (r : Reading) : r.filled [] = r.sections := by
  unfold filled
  split
  · next hs => rw [hs, List.filterMap_nil, Properties.insertMany_nil]
  · rfl

/-- A line that sets nothing leaves the sections to the lines below it. -/
theorem filled_other (r : Reading) (h : line.pair? = none) (lines : List Line) :
    r.filled (line :: lines) = r.filled lines := by
  unfold filled
  rw [List.filterMap_cons_none h]

theorem filled_property (r : Reading) (number : Nat) (key value : String) (lines : List Line) :
    r.filled (.property key value :: lines) =
      (r.next number (.property key value)).filled lines := by
  obtain ⟨scope, isRoot, sections, skipped⟩ := r
  cases scope with
  | preamble =>
    by_cases hroot : Text.equalIgnoringCase key "root" = true <;> simp [filled, next, hroot]
  | discarding => simp [filled, next]
  | sectionBody =>
    cases sections with
    | nil => simp [filled, next, setLast]
    | cons s others =>
      simp [filled, next, setLast, Line.pair?, Properties.insertMany_cons]

/-- Lines up to the next header go to the section begun last, the others to sections of their
own. -/
theorem sections_nextAll (r : Reading) (number : Nat) (lines : List Line) :
    (r.nextAll number lines).sections = (sectionsOf lines).reverse ++ r.filled (block lines) := by
  induction lines generalizing r number with
  | nil => exact (filled_nil r).symm
  | cons line rest ih =>
    rw [nextAll, ih]
    cases line with
    | nothing | malformed reason =>
      rw [sectionsOf_other rfl, block_of_other rfl, filled_other r rfl]
      rfl
    | header pattern =>
      rw [sectionsOf_header, block_of_header rfl, filled_nil]
      simp [filled, next, Properties.ofList]
    | badHeader reason =>
      rw [sectionsOf_other rfl, block_of_header rfl, filled_nil]
      rfl
    | property key value =>
      rw [sectionsOf_other rfl, block_of_other rfl, filled_property r number]

/-- Only lines above the next header can change the root flag, and only in the preamble. -/
theorem isRoot_nextAll (r : Reading) (number : Nat) (lines : List Line) :
    (r.nextAll number lines).isRoot =
      if r.scope = .preamble then
        ((block lines).filterMap Line.root?).getLast?.elim r.isRoot
          (Text.equalIgnoringCase · "true")
      else r.isRoot := by
  induction lines generalizing r number with
  | nil => simp [nextAll]
  | cons line rest ih =>
    rw [nextAll, ih]
    cases line with
    | nothing | malformed reason =>
      rw [block_of_other rfl]
      simp [next, Line.root?]
    | header pattern | badHeader reason =>
      rw [block_of_header rfl]
      simp [next]
    | property key value =>
      rw [block_of_other rfl]
      obtain ⟨scope, isRoot, sections, skipped⟩ := r
      cases scope with
      | sectionBody => simp [next]
      | discarding => simp [next]
      | preamble =>
        by_cases hroot : Text.equalIgnoringCase key "root" = true
        · simp only [next, hroot, if_true, Line.root?, List.filterMap_cons, List.getLast?_cons]
          cases ((block rest).filterMap Line.root?).getLast? <;> rfl
        · simp [next, hroot, Line.root?]

/-! ## What a reader has skipped -/

/-- Why a line is skipped when the lines above it stand in a document below a given part. -/
def Rejects (scope : Scope) (above : List Line) : Line → SkipReason → Prop
  | .badHeader reason, reason' | .malformed reason, reason' => reason' = reason
  | .property _ _, reason' => scopeBelow scope above = .discarding ∧ reason' = .orphanProperty
  | _, _ => False

theorem rejects_start {reason : SkipReason} :
    Rejects .preamble above line reason ↔ Skips above line reason := by
  constructor
  · intro h
    cases line with
    | nothing => exact h.elim
    | header pattern => exact h.elim
    | badHeader r => exact (show reason = r from h) ▸ .badHeader
    | malformed r => exact (show reason = r from h) ▸ .malformed
    | property key value =>
      obtain ⟨hscope, rfl⟩ := h
      unfold scopeBelow at hscope
      cases hheader : headerAbove? above with
      | none => simp [hheader] at hscope
      | some header =>
        cases header with
        | badHeader r => exact .orphan hheader
        | header pattern => simp [hheader] at hscope
        | _ => cases isHeader_of_headerAbove? hheader
  · intro h
    cases h with
    | badHeader => rfl
    | malformed => rfl
    | orphan rejected => exact ⟨by simp [scopeBelow, rejected], rfl⟩

theorem scope_next (r : Reading) (number : Nat) (line : Line) (above : List Line) :
    scopeBelow (r.next number line).scope above = scopeBelow r.scope (line :: above) := by
  unfold scopeBelow
  rw [headerAbove?_cons]
  cases headerAbove? above with
  | some header => cases header <;> rfl
  | none =>
    cases line with
    | nothing | header pattern | badHeader reason | malformed reason => rfl
    | property key value =>
      obtain ⟨scope, isRoot, sections, skipped⟩ := r
      cases scope with
      | preamble =>
        by_cases hroot : Text.equalIgnoringCase key "root" = true <;>
          simp [next, hroot, Line.isHeader]
      | sectionBody => rfl
      | discarding => rfl

theorem rejects_next {r : Reading} {number : Nat} {first : Line} {reason : SkipReason} :
    Rejects (r.next number first).scope above line reason ↔
      Rejects r.scope (first :: above) line reason := by
  cases line <;> simp only [Rejects, scope_next]

theorem mem_skipped_next {r : Reading} {number : Nat} {line : Line} {s : SkippedLine} :
    s ∈ (r.next number line).skipped ↔
      s ∈ r.skipped ∨ (s.line = number ∧ Rejects r.scope [] line s.reason) := by
  obtain ⟨n, reason⟩ := s
  cases line with
  | nothing | header pattern => simp [next, Rejects]
  | badHeader r' | malformed r' => simp [next, Rejects, or_comm]
  | property key value =>
    obtain ⟨scope, isRoot, sections, skipped⟩ := r
    cases scope with
    | preamble =>
      by_cases hroot : Text.equalIgnoringCase key "root" = true <;>
        simp [next, hroot, Rejects, scopeBelow, headerAbove?]
    | sectionBody => simp [next, Rejects, scopeBelow, headerAbove?]
    | discarding => simp [next, Rejects, scopeBelow, headerAbove?, or_comm]

/-- A line that is skipped is one of the lines, with its number and what stands above it. -/
theorem mem_skipped_nextAll (r : Reading) (number : Nat) (lines : List Line) (s : SkippedLine) :
    s ∈ (r.nextAll number lines).skipped ↔ s ∈ r.skipped ∨
      ∃ above line below, lines = above ++ line :: below ∧ s.line = number + above.length ∧
        Rejects r.scope above line s.reason := by
  induction lines generalizing r number with
  | nil => simp [nextAll]
  | cons first rest ih =>
    rw [nextAll, ih, mem_skipped_next, or_assoc]
    refine or_congr_right ?_
    constructor
    · rintro (⟨hn, h⟩ | ⟨above, line, below, rfl, hn, h⟩)
      · exact ⟨[], first, rest, rfl, hn, h⟩
      · refine ⟨first :: above, line, below, rfl, ?_, rejects_next.mp h⟩
        rw [hn, List.length_cons]
        omega
    · rintro ⟨above, line, below, hlines, hn, h⟩
      cases above with
      | nil =>
        obtain ⟨rfl, rfl⟩ := List.cons.inj hlines
        exact Or.inl ⟨hn, h⟩
      | cons a above =>
        obtain ⟨rfl, rfl⟩ := List.cons.inj hlines
        refine Or.inr ⟨above, line, below, rfl, ?_, rejects_next.mpr h⟩
        rw [hn, List.length_cons]
        omega

theorem skipped_next (r : Reading) (number : Nat) (line : Line) :
    (r.next number line).skipped = r.skipped ∨
      ∃ reason, (r.next number line).skipped = ⟨number, reason⟩ :: r.skipped := by
  cases line with
  | nothing | header pattern => exact Or.inl rfl
  | badHeader reason | malformed reason => exact Or.inr ⟨_, rfl⟩
  | property key value =>
    obtain ⟨scope, isRoot, sections, skipped⟩ := r
    cases scope with
    | preamble =>
      by_cases hroot : Text.equalIgnoringCase key "root" = true <;> simp [next, hroot]
    | sectionBody => exact Or.inl rfl
    | discarding => exact Or.inr ⟨_, rfl⟩

/-- Skipped lines come in the order of their numbers, the latest first. -/
theorem descending_nextAll {r : Reading} {number : Nat} {lines : List Line}
    (sorted : r.skipped.Pairwise fun a b => b.line < a.line)
    (past : ∀ s ∈ r.skipped, s.line < number) :
    (r.nextAll number lines).skipped.Pairwise fun a b => b.line < a.line := by
  induction lines generalizing r number with
  | nil => exact sorted
  | cons line rest ih =>
    rw [nextAll]
    rcases skipped_next r number line with h | ⟨reason, h⟩
    · exact ih (h ▸ sorted) fun s hs => Nat.lt_succ_of_lt (past s (h ▸ hs))
    · refine ih (h ▸ List.pairwise_cons.mpr ⟨past, sorted⟩) ?_
      rw [h]
      exact List.forall_mem_cons.mpr
        ⟨Nat.lt_succ_self number, fun s hs => Nat.lt_succ_of_lt (past s hs)⟩

end Reading

/-! ## Whole documents -/

theorem saidBy_ofLines (lines : List Line) : (ofLines lines).SaidBy lines := by
  refine ⟨?_, ?_, ?_, ?_⟩
  · simp [ofLines, Reading.finish, Reading.sections_nextAll, Reading.start, Reading.filled]
  · simp only [ofLines, Reading.finish, Reading.isRoot_nextAll, Reading.start, rootOf]
    cases ((block lines).filterMap Line.root?).getLast? <;> rfl
  · exact List.pairwise_reverse.mpr
      (Reading.descending_nextAll (r := Reading.start) List.Pairwise.nil (by simp [Reading.start]))
  · intro number reason
    simp only [ofLines, Reading.finish, List.mem_reverse, Reading.mem_skipped_nextAll,
      Reading.rejects_start, Reading.start, List.not_mem_nil, false_or, Nat.add_comm]

/-- Lines make up one document. -/
theorem eq_of_saidBy {d d' : Document} (h : d.SaidBy lines) (h' : d'.SaidBy lines) : d = d' := by
  have skipped : d.skipped = d'.skipped := by
    have : Std.Irrefl fun a b : SkippedLine => a.line < b.line := ⟨fun a => Nat.lt_irrefl a.line⟩
    refine List.Pairwise.eq_of_mem_iff h.ascending h'.ascending ?_
    rintro ⟨number, reason⟩
    rw [h.skipped, h'.skipped]
  obtain ⟨isRoot, sections, _⟩ := d
  obtain ⟨isRoot', sections', _⟩ := d'
  obtain rfl : sections = sections' := h.sections.trans h'.sections.symm
  obtain rfl : isRoot = isRoot' := h.isRoot.trans h'.isRoot.symm
  exact congrArg _ skipped

theorem parse_of_nul {content : String} {before after : List Char}
    (written : content.toList = before ++ '\x00' :: after) (first : '\x00' ∉ before) :
    parse content = .error ⟨1 + before.count '\n'⟩ := by
  rw [parse, Text.cut?_eq_some_iff.mpr ⟨written, first⟩, Nat.add_comm]

theorem parse_of_no_nul {content : String} (h : '\x00' ∉ content.toList) :
    parse content =
      .ok (ofLines ((Text.lines (Text.dropMark content.toList)).map Line.ofText)) := by
  rw [parse, Text.cut?_eq_none_iff.mpr h]

/-- A text with a NUL character is refused with the line of the first one; any other text is read,
and what is read is exactly the document that its lines make up. -/
theorem parse_exact (content : String) :
    (∀ before after, content.toList = before ++ '\x00' :: after → '\x00' ∉ before →
      parse content = .error ⟨1 + before.count '\n'⟩) ∧
    ('\x00' ∉ content.toList →
      (∃ d, parse content = .ok d) ∧
      ∀ d, parse content = .ok d ↔
        ∃ lines, Written content.toList lines ∧ d.SaidBy lines) := by
  refine ⟨fun before after => parse_of_nul, fun h => ⟨⟨_, parse_of_no_nul h⟩, ?_⟩⟩
  intro d
  rw [parse_of_no_nul h, Except.ok.injEq]
  constructor
  · rintro rfl
    exact ⟨_, written_iff.mpr rfl, saidBy_ofLines _⟩
  · rintro ⟨lines, written, said⟩
    obtain rfl := written_iff.mp written
    exact eq_of_saidBy (saidBy_ofLines _) said

-- A rejected header takes the property below it along.
example : (parse "[*.c]\nroot = true\n[*.h\ntab_width = 8\n").toOption =
    some ⟨false, [⟨"*.c", .ofList [("root", "true")]⟩],
      [⟨3, .unterminatedSection⟩, ⟨4, .orphanProperty⟩]⟩ := by decide +kernel

end Document

end EditorConfig
