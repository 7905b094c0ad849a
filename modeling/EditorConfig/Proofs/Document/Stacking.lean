import EditorConfig.Proofs.Document.Blocks
/-!
# A text below another

Nothing that is read above a header reaches below it: a header ends the section above it as well as
what a rejected header takes along, and the root flag belongs to the lines above all headers. A text
whose first line that says anything opens a header is therefore read below another text as it is
read alone, save that its lines are counted from further above.

One line is taken in on top of what was read before as it is taken in without that, provided that
there is a header of its own above it; the run over all lines follows by induction.
-/
namespace EditorConfig

/-- The line when `k` more lines stand above it. -/
def SkippedLine.raised (k : Nat) (s : SkippedLine) : SkippedLine := { s with line := s.line + k }

namespace Document

/-- Two documents as one, the first of which takes up `k` lines. What the second says of `root`
does not count. -/
def stack (k : Nat) (above below : Document) : Document :=
  ⟨above.isRoot, above.sections ++ below.sections,
    above.skipped ++ below.skipped.map (.raised k)⟩

/-- The first line that is neither blank nor a comment, if there is one, opens a header, accepted or
not. -/
def HeaderFirst (s : List Char) : Prop :=
  ∃ quiet rest, Text.Cuts s (quiet ++ rest) ∧ (∀ line ∈ quiet, Line.Reads line .nothing) ∧
    ∀ line, rest.head? = some line → Line.Opens line

namespace Reading
variable {r : Reading} {line : Line} {quiet : List Line}

/-! ## Lines that say nothing -/

theorem nextAll_quiet (r : Reading) (n : Nat) (h : ∀ line ∈ quiet, line = .nothing) :
    r.nextAll n quiet = r := by
  induction quiet generalizing n with
  | nil => rfl
  | cons line quiet ih =>
    rw [List.forall_mem_cons] at h
    rw [nextAll, h.1]
    exact ih (n + 1) h.2

/-! ## One line on top of others -/

/-- What is read on top of what was read before from the first `k` lines. -/
def onTop (base : Reading) (k : Nat) (r : Reading) : Reading :=
  ⟨r.scope, base.isRoot, r.sections ++ base.sections, r.skipped.map (.raised k) ++ base.skipped⟩

/-- There is a header of its own above the next line. -/
def Headed (r : Reading) : Prop :=
  r.scope = .discarding ∨ (r.scope = .sectionBody ∧ r.sections ≠ [])

theorem Headed.next (h : r.Headed) (n : Nat) (line : Line) : (r.next n line).Headed := by
  cases line with
  | nothing | malformed reason => exact h
  | header pattern => exact .inr ⟨rfl, List.cons_ne_nil _ _⟩
  | badHeader reason => exact .inl rfl
  | property key value =>
    obtain ⟨scope, isRoot, sections, skipped⟩ := r
    rcases h with rfl | ⟨rfl, named⟩
    · exact .inl rfl
    · obtain ⟨last, others, rfl⟩ := List.exists_cons_of_ne_nil named
      exact .inr ⟨rfl, List.cons_ne_nil _ _⟩

/-- A header is taken in alike on top of anything. -/
theorem headed_next (base : Reading) (k n : Nat) (h : line.isHeader = true) :
    (start.next n line).Headed ∧
      base.next (n + k) line = base.onTop k (start.next n line) := by
  cases line with
  | header pattern => exact ⟨.inr ⟨rfl, List.cons_ne_nil _ _⟩, rfl⟩
  | badHeader reason => exact ⟨.inl rfl, rfl⟩
  | nothing | property key value | malformed reason => cases h

/-- Below a header of its own a line does not reach what was read before. -/
theorem onTop_next (base : Reading) (k n : Nat) (h : r.Headed) (line : Line) :
    (base.onTop k r).next (n + k) line = base.onTop k (r.next n line) := by
  cases line with
  | nothing | header pattern | badHeader reason | malformed reason => rfl
  | property key value =>
    obtain ⟨scope, isRoot, sections, skipped⟩ := r
    rcases h with rfl | ⟨rfl, named⟩
    · rfl
    · obtain ⟨last, others, rfl⟩ := List.exists_cons_of_ne_nil named
      rfl

theorem onTop_nextAll (base : Reading) (k n : Nat) (h : r.Headed) (lines : List Line) :
    (base.onTop k r).nextAll (n + k) lines = base.onTop k (r.nextAll n lines) := by
  induction lines generalizing r n with
  | nil => rfl
  | cons line rest ih =>
    rw [nextAll, onTop_next base k n h, Nat.add_right_comm, ih (n + 1) (h.next n line), nextAll]

end Reading

/-! ## Whole documents -/

/-- Lines that begin with a header, save for ones that say nothing, go on top of any others. -/
theorem ofLines_append (above : List Line) {quiet rest : List Line}
    (still : ∀ line ∈ quiet, line = .nothing)
    (header : ∀ line, rest.head? = some line → line.isHeader = true) :
    ofLines (above ++ (quiet ++ rest)) =
      stack above.length (ofLines above) (ofLines (quiet ++ rest)) := by
  simp only [ofLines, Reading.nextAll_append, Reading.nextAll_quiet _ _ still]
  generalize Reading.start.nextAll 1 above = base
  cases rest with
  | nil => simp [Reading.nextAll, Reading.finish, Reading.start, stack]
  | cons line rest =>
    obtain ⟨headed, first⟩ := Reading.headed_next base above.length (1 + quiet.length)
      (header line rfl)
    have numbers : 1 + above.length + quiet.length = 1 + quiet.length + above.length := by omega
    rw [Reading.nextAll, Reading.nextAll, numbers, first, Nat.add_right_comm,
      Reading.onTop_nextAll base _ _ headed]
    simp [Reading.onTop, Reading.finish, stack]

/-- A text that begins with a header, behind any blank lines and comments, is read below another
text as it is read alone, with its lines counted from the first line of the other text. -/
theorem parse_below_other {above below : String} (noNul : '\x00' ∉ above.toList)
    (noNulBelow : '\x00' ∉ below.toList) (unmarked : below.toList.head? ≠ some '\uFEFF')
    (header : HeaderFirst below.toList) :
    ∃ d d', parse above = .ok d ∧ parse below = .ok d' ∧
      parse (above ++ "\n" ++ below) =
        .ok (stack ((above ++ "\n").toList.count '\n') d d') := by
  obtain ⟨text, marked⟩ : ∃ text, Text.Unmarked above.toList text :=
    ⟨_, Text.unmarked_iff.mpr rfl⟩
  have whole : (above ++ "\n" ++ below).toList = above.toList ++ '\n' :: below.toList := by
    simp [String.toList_append]
  have noNulWhole : '\x00' ∉ (above ++ "\n" ++ below).toList := by
    rw [whole, List.mem_append, List.mem_cons, not_or, not_or]
    exact ⟨noNul, by decide, noNulBelow⟩
  have markedWhole := marked.append_feed below.toList
  rw [← whole] at markedWhole
  refine ⟨_, _, parse_eq_ofLines noNul marked,
    parse_eq_ofLines noNulBelow (.inr ⟨rfl, unmarked⟩), ?_⟩
  obtain ⟨quiet, rest, cuts, still, opens⟩ := header
  have stillLines : ∀ line ∈ quiet.map Line.ofText, line = .nothing :=
    List.forall_mem_map.mpr fun line hline => Line.reads_iff.mp (still line hline)
  have headerLines : ∀ line, (rest.map Line.ofText).head? = some line → line.isHeader = true := by
    intro line hline
    rw [List.head?_map] at hline
    obtain ⟨first, hfirst, rfl⟩ := Option.map_eq_some_iff.mp hline
    exact (Line.isHeader_ofText first).mpr (opens first hfirst)
  have count : (above ++ "\n").toList.count '\n' = ((Text.lines text).map Line.ofText).length := by
    rw [List.length_map, Text.length_lines, ← marked.count_feed]
    simp [String.toList_append]
  have cut : Text.lines (text ++ '\n' :: below.toList) = Text.lines text ++ (quiet ++ rest) := by
    rw [← Text.cuts_iff.mp cuts]
    exact List.splitOn_append_cons_self text below.toList
  rw [parse_eq_ofLines noNulWhole markedWhole, cut, Text.cuts_iff.mp cuts, count, List.map_append,
    List.map_append, ofLines_append _ stillLines headerLines]

/-- A text that ends in a carriage return below a header, and one that begins with a comment and a
rejected header. -/
theorem parse_below_other_rejected :
    let above := "\uFEFFroot = true\n[*.c]\ntab_width = 8\r"
    let below := " ; note\n[*.h\nroot = false\n[*]\nnonsense"
    HeaderFirst below.toList ∧
      parse below = .ok ⟨false, [⟨"*", .empty⟩],
        [⟨2, .unterminatedSection⟩, ⟨3, .orphanProperty⟩, ⟨5, .missingEquals⟩]⟩ ∧
      parse (above ++ "\n" ++ below) =
        .ok ⟨true, [⟨"*.c", .ofList [("tab_width", "8")]⟩, ⟨"*", .empty⟩],
          [⟨5, .unterminatedSection⟩, ⟨6, .orphanProperty⟩, ⟨8, .missingEquals⟩]⟩ := by
  intro above below
  have header : HeaderFirst below.toList :=
    ⟨[" ; note".toList], ["[*.h".toList, "root = false".toList, "[*]".toList, "nonsense".toList],
      Text.cuts_iff.mpr (by decide), by simp [Line.reads_iff]; decide,
      fun line hline => by
        obtain rfl := Option.some.inj hline
        exact (Line.isHeader_ofText _).mp (by decide)⟩
  have readAbove : parse above = .ok ⟨true, [⟨"*.c", .ofList [("tab_width", "8")]⟩], []⟩ := by
    decide +kernel
  have readBelow : parse below = .ok ⟨false, [⟨"*", .empty⟩],
      [⟨2, .unterminatedSection⟩, ⟨3, .orphanProperty⟩, ⟨5, .missingEquals⟩]⟩ := by
    decide +kernel
  have noNul : '\x00' ∉ above.toList := by decide
  obtain ⟨d, d', hd, hd', both⟩ := parse_below_other noNul (by decide) (by decide) header
  obtain rfl := Except.ok.inj (hd.symm.trans readAbove)
  obtain rfl := Except.ok.inj (hd'.symm.trans readBelow)
  exact ⟨header, readBelow, both.trans (by decide +kernel)⟩

end Document

end EditorConfig
