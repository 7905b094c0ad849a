import EditorConfig.Proofs.Document.Blocks
/-!
# Emptying skipped lines

A line that was skipped means nothing for the rest of the document. A rejected header does take the
properties below it along, but then each of them is skipped as well: with all skipped lines emptied,
no line is left that would notice, and the document reads as before with nothing to skip.
-/
namespace EditorConfig.Document

/-- The lines from a given number on when those that were skipped are blank and the others stay. -/
inductive Emptied (skipped : List SkippedLine) : Nat → List (List Char) → List (List Char) → Prop
  | nil {n : Nat} : Emptied skipped n [] []
  | kept {n : Nat} {line : List Char} {lines lines' : List (List Char)}
      (read : ∀ s ∈ skipped, s.line ≠ n) :
      Emptied skipped (n + 1) lines lines' → Emptied skipped n (line :: lines) (line :: lines')
  | emptied {n : Nat} {line blank : List Char} {lines lines' : List (List Char)}
      (rejected : ∃ s ∈ skipped, s.line = n) (empty : Text.Trims blank []) :
      Emptied skipped (n + 1) lines lines' → Emptied skipped n (line :: lines) (blank :: lines')

/-- The text with its skipped lines emptied. The byte order mark in front of it, if there is one,
stays. -/
def Blanked (skipped : List SkippedLine) (content content' : String) : Prop :=
  ∃ mark text text' lines lines', content.toList = mark ++ text ∧ content'.toList = mark ++ text' ∧
    (mark = ['\uFEFF'] ∨ (mark = [] ∧ text.head? ≠ some '\uFEFF')) ∧
    Text.Cuts text lines ∧ Text.Cuts text' lines' ∧ Emptied skipped 1 lines lines'

/-- What two readers have in common if only the second went without the skipped lines. -/
structure Agrees (r r' : Reading) : Prop where
  isRoot : r'.isRoot = r.isRoot
  sections : r'.sections = r.sections
  skipped : r'.skipped = []
  scope : r.scope = .discarding ∨ r'.scope = r.scope

variable {r r' : Reading} {n : Nat} {line : Line} {skipped : List SkippedLine}
  {lines lines' : List (List Char)}

/-! ## One line -/

theorem agrees_start : Agrees .start .start := ⟨rfl, rfl, rfl, .inr rfl⟩

/-- A line that is not skipped means the same to both readers. -/
theorem Agrees.next (h : Agrees r r') (n : Nat)
    (read : ∀ reason, ¬ Reading.Rejects r.scope [] line reason) :
    Agrees (r.next n line) (r'.next n line) := by
  obtain ⟨scope, isRoot, sections, skipped⟩ := r
  obtain ⟨scope', isRoot', sections', skipped'⟩ := r'
  obtain ⟨rfl, rfl, rfl, scopes⟩ := h
  cases line with
  | nothing => exact ⟨rfl, rfl, rfl, scopes⟩
  | header pattern => exact ⟨rfl, rfl, rfl, .inr rfl⟩
  | badHeader reason | malformed reason => exact (read reason rfl).elim
  | property key value =>
    rcases scopes with rfl | rfl
    · exact (read .orphanProperty ⟨rfl, rfl⟩).elim
    · cases scope' with
      | preamble =>
        simp only [Reading.next]
        split
        · exact ⟨rfl, rfl, rfl, .inr rfl⟩
        · exact ⟨rfl, rfl, rfl, .inr rfl⟩
      | sectionBody => exact ⟨rfl, rfl, rfl, .inr rfl⟩
      | discarding => exact (read .orphanProperty ⟨rfl, rfl⟩).elim

/-- A line that is skipped leaves nothing but its number. -/
theorem Agrees.skip (h : Agrees r r') (n : Nat) {reason : SkipReason}
    (rejected : Reading.Rejects r.scope [] line reason) : Agrees (r.next n line) r' := by
  cases line with
  | nothing | header pattern => exact rejected.elim
  | badHeader reason => exact ⟨h.isRoot, h.sections, h.skipped, .inl rfl⟩
  | malformed reason => exact ⟨h.isRoot, h.sections, h.skipped, h.scope⟩
  | property key value =>
    have discarding : r.scope = .discarding := rejected.1
    have skips : r.next n (.property key value) =
        { r with skipped := ⟨n, .orphanProperty⟩ :: r.skipped } := by
      rw [Reading.next, discarding]
    rw [skips]
    exact ⟨h.isRoot, h.sections, h.skipped, h.scope⟩

/-! ## All lines -/

/-- The next line is skipped if its number is found among the skipped ones in the end. -/
theorem exists_skipped_iff {rest : List Line} (past : ∀ s ∈ r.skipped, s.line < n) :
    (∃ s ∈ (r.nextAll n (line :: rest)).skipped, s.line = n) ↔
      ∃ reason, Reading.Rejects r.scope [] line reason := by
  simp only [Reading.mem_skipped_nextAll]
  constructor
  · rintro ⟨s, earlier | ⟨above, first, below, hlines, hline, rejected⟩, rfl⟩
    · exact (Nat.lt_irrefl _ (past s earlier)).elim
    · obtain rfl : above = [] := List.length_eq_zero_iff.mp (by omega)
      obtain ⟨rfl, -⟩ := List.cons.inj hlines
      exact ⟨_, rejected⟩
  · rintro ⟨reason, rejected⟩
    exact ⟨⟨n, reason⟩, .inr ⟨[], line, rest, rfl, rfl, rejected⟩, rfl⟩

theorem past_next (past : ∀ s ∈ r.skipped, s.line < n) :
    ∀ s ∈ (r.next n line).skipped, s.line < n + 1 := by
  intro s hs
  rcases Reading.mem_skipped_next.mp hs with earlier | ⟨rfl, -⟩
  · exact Nat.lt_succ_of_lt (past s earlier)
  · exact Nat.lt_succ_self _

/-- Two readers of which the second finds the skipped lines emptied agree in the end. The induction
is on the lines; which of them are skipped is only known in the end. -/
theorem Agrees.nextAll (emptied : Emptied skipped n lines lines') (h : Agrees r r')
    (past : ∀ s ∈ r.skipped, s.line < n)
    (all : ∀ s, s ∈ skipped ↔ s ∈ (r.nextAll n (lines.map Line.ofText)).skipped) :
    Agrees (r.nextAll n (lines.map Line.ofText)) (r'.nextAll n (lines'.map Line.ofText)) := by
  induction emptied generalizing r r' with
  | nil => exact h
  | @kept n line lines lines' read _ ih =>
    refine ih (h.next n fun reason rejected => ?_) (past_next past) all
    obtain ⟨s, hs, hline⟩ := (exists_skipped_iff past).mpr ⟨reason, rejected⟩
    exact read s ((all s).mpr hs) hline
  | @emptied n line blank lines lines' rejected empty _ ih =>
    have nothing : Line.ofText blank = .nothing :=
      Line.reads_iff.mp ⟨[], empty, .nothing (.inl rfl)⟩
    obtain ⟨s, hs, hline⟩ := rejected
    obtain ⟨reason, rejected⟩ := (exists_skipped_iff past).mp ⟨s, (all s).mp hs, hline⟩
    rw [List.map_cons, List.map_cons, nothing]
    exact ih (h.skip n rejected) (past_next past) all

theorem ofLines_emptied
    (emptied : Emptied (ofLines (lines.map Line.ofText)).skipped 1 lines lines') :
    ofLines (lines'.map Line.ofText) =
      { ofLines (lines.map Line.ofText) with skipped := [] } := by
  have agrees := agrees_start.nextAll emptied (by simp [Reading.start])
    fun s => List.mem_reverse
  simp only [ofLines, Reading.finish, agrees.isRoot, agrees.sections, agrees.skipped,
    List.reverse_nil]

/-! ## Texts -/

theorem mem_emptied (emptied : Emptied skipped n lines lines') {line : List Char}
    (h : line ∈ lines') : line ∈ lines ∨ Text.Trims line [] := by
  induction emptied with
  | nil => exact .inl h
  | kept _ _ ih =>
    rcases List.mem_cons.mp h with rfl | h
    · exact .inl List.mem_cons_self
    · exact (ih h).imp_left (List.mem_cons_of_mem _)
  | emptied _ empty _ ih =>
    rcases List.mem_cons.mp h with rfl | h
    · exact .inr empty
    · exact (ih h).imp_left (List.mem_cons_of_mem _)

theorem isBlank_of_mem {line : List Char} {c : Char} (empty : Text.Trims line []) (hc : c ∈ line) :
    Text.isBlank c = true := by
  obtain ⟨front, back, rfl, hfront, hback⟩ := empty.cut
  rw [List.append_nil] at hc
  rcases List.mem_append.mp hc with hc | hc
  · exact hfront c hc
  · exact hback c hc

/-- Emptying lines brings up no characters but blank ones. -/
theorem mem_of_emptied {text text' : List Char} {c : Char} (cuts : Text.Cuts text lines)
    (cuts' : Text.Cuts text' lines') (emptied : Emptied skipped n lines lines')
    (visible : Text.isBlank c = false) (h : c ∈ text') : c ∈ text := by
  rw [cuts'.joined] at h
  rcases Text.mem_intercalate h with rfl | ⟨line, hline, hc⟩
  · cases visible
  · rcases mem_emptied emptied hline with hline | empty
    · rw [cuts.joined]
      exact Text.mem_intercalate_of_mem hline hc
    · rw [isBlank_of_mem empty hc] at visible
      cases visible

/-- Emptying lines brings no character but a blank one to the beginning. -/
theorem head?_of_emptied {text text' : List Char} {c : Char} (cuts : Text.Cuts text lines)
    (cuts' : Text.Cuts text' lines') (emptied : Emptied skipped n lines lines')
    (visible : Text.isBlank c = false) (h : text'.head? = some c) : text.head? = some c := by
  have inside : c ≠ '\n' := by
    rintro rfl
    cases visible
  cases emptied with
  | nil => exact (cuts.nonempty rfl).elim
  | kept _ _ =>
    rw [cuts'.joined, Text.head?_intercalate inside] at h
    rwa [cuts.joined, Text.head?_intercalate inside]
  | emptied _ empty _ =>
    rw [cuts'.joined, Text.head?_intercalate inside] at h
    rw [isBlank_of_mem empty (List.mem_of_head? h)] at visible
    cases visible

theorem exists_emptied (skipped : List SkippedLine) (n : Nat)
    (inside : ∀ line ∈ lines, '\n' ∉ line) :
    ∃ lines', Emptied skipped n lines lines' ∧ ∀ line ∈ lines', '\n' ∉ line := by
  induction lines generalizing n with
  | nil => exact ⟨[], .nil, inside⟩
  | cons line lines ih =>
    obtain ⟨hline, hlines⟩ := List.forall_mem_cons.mp inside
    obtain ⟨lines', emptied, inside'⟩ := ih (n + 1) hlines
    by_cases rejected : ∃ s ∈ skipped, s.line = n
    · exact ⟨[] :: lines', .emptied rejected (Text.trims_trim []) emptied,
        List.forall_mem_cons.mpr ⟨List.not_mem_nil, inside'⟩⟩
    · have read : ∀ s ∈ skipped, s.line ≠ n := fun s hs hline => rejected ⟨s, hs, hline⟩
      exact ⟨line :: lines', .kept read emptied, List.forall_mem_cons.mpr ⟨hline, inside'⟩⟩

theorem Emptied.ne_nil (emptied : Emptied skipped n lines lines') (h : lines ≠ []) :
    lines' ≠ [] := by
  cases emptied with
  | nil => exact (h rfl).elim
  | kept _ _ => exact List.cons_ne_nil _ _
  | emptied _ _ _ => exact List.cons_ne_nil _ _

/-! ## Documents -/

theorem exists_blanked (skipped : List SkippedLine) (content : String) :
    ∃ content', Blanked skipped content content' := by
  have cuts := Text.cuts_iff.mpr (rfl : Text.lines (Text.dropMark content.toList) = _)
  obtain ⟨lines', emptied, inside⟩ := exists_emptied skipped 1 cuts.inside
  have cuts' : Text.Cuts (['\n'].intercalate lines') lines' :=
    ⟨rfl, emptied.ne_nil cuts.nonempty, inside⟩
  rcases Text.unmarked_iff.mpr (rfl : Text.dropMark content.toList = _) with marked | ⟨plain, head⟩
  · exact ⟨String.ofList (['\uFEFF'] ++ ['\n'].intercalate lines'), _, _, _, _, _, marked,
      String.toList_ofList, .inl rfl, cuts, cuts', emptied⟩
  · exact ⟨String.ofList ([] ++ ['\n'].intercalate lines'), _, _, _, _, _, plain,
      String.toList_ofList, .inr ⟨rfl, plain ▸ head⟩, cuts, cuts', emptied⟩

theorem no_nul_of_parse {content : String} {d : Document} (read : parse content = .ok d) :
    '\x00' ∉ content.toList := by
  unfold parse at read
  split at read
  · cases read
  · next none => exact Text.cut?_eq_none_iff.mp none

theorem unmarked_behind {mark text : List Char}
    (h : mark = ['\uFEFF'] ∨ (mark = [] ∧ text.head? ≠ some '\uFEFF')) :
    Text.Unmarked (mark ++ text) text := by
  rcases h with rfl | ⟨rfl, head⟩
  · exact .inl rfl
  · exact .inr ⟨rfl, head⟩

/-- Skipped lines carry no meaning. A text that reads can always be written with its skipped lines
emptied, and however that is done it reads as the same document with nothing to skip. -/
theorem skipped_mean_nothing {content : String} {d : Document} (read : parse content = .ok d) :
    (∃ content', Blanked d.skipped content content') ∧
      ∀ content', Blanked d.skipped content content' →
        parse content' = .ok { d with skipped := [] } := by
  refine ⟨exists_blanked d.skipped content, ?_⟩
  rintro content' ⟨mark, text, text', lines, lines', hcontent, hcontent', marked, cuts, cuts',
    emptied⟩
  have head : text.head? ≠ some '\uFEFF' → text'.head? ≠ some '\uFEFF' :=
    mt (head?_of_emptied cuts cuts' emptied (by decide))
  have unmarked := unmarked_behind marked
  have unmarked' := unmarked_behind (marked.imp_right (And.imp_right head))
  rw [← hcontent] at unmarked
  rw [← hcontent'] at unmarked'
  have hnul := no_nul_of_parse read
  have hnul' : '\x00' ∉ content'.toList := by
    rw [nul_mem_of_unmarked unmarked']
    rw [nul_mem_of_unmarked unmarked] at hnul
    exact fun h => hnul (mem_of_emptied cuts cuts' emptied (by decide) h)
  rw [parse_eq_ofLines hnul unmarked, Text.cuts_iff.mp cuts] at read
  obtain rfl := Except.ok.inj read
  rw [parse_eq_ofLines hnul' unmarked', Text.cuts_iff.mp cuts', ofLines_emptied emptied]

/-- A rejected header with a property below it, and a line that is neither. -/
theorem skipped_mean_nothing_header :
    parse "\uFEFF[*.c\nroot = true\nnonsense\n[*.h]\ntab_width = 8" =
      .ok ⟨false, [⟨"*.h", .ofList [("tab_width", "8")]⟩],
        [⟨1, .unterminatedSection⟩, ⟨2, .orphanProperty⟩, ⟨3, .missingEquals⟩]⟩ ∧
    parse "\uFEFF\n \n\r\n[*.h]\ntab_width = 8" =
      .ok ⟨false, [⟨"*.h", .ofList [("tab_width", "8")]⟩], []⟩ := by
  have read : parse "\uFEFF[*.c\nroot = true\nnonsense\n[*.h]\ntab_width = 8" =
      .ok ⟨false, [⟨"*.h", .ofList [("tab_width", "8")]⟩],
        [⟨1, .unterminatedSection⟩, ⟨2, .orphanProperty⟩, ⟨3, .missingEquals⟩]⟩ := by
    decide +kernel
  refine ⟨read, (skipped_mean_nothing read).2 _ ⟨['\uFEFF'],
    "[*.c\nroot = true\nnonsense\n[*.h]\ntab_width = 8".toList,
    "\n \n\r\n[*.h]\ntab_width = 8".toList, _, _, by decide, by decide, .inl rfl,
    Text.cuts_iff.mpr rfl, Text.cuts_iff.mpr rfl, ?_⟩⟩
  refine .emptied ⟨⟨1, .unterminatedSection⟩, by decide, rfl⟩ (Text.trims_iff.mpr (by decide)) ?_
  refine .emptied ⟨⟨2, .orphanProperty⟩, by decide, rfl⟩ (Text.trims_iff.mpr (by decide)) ?_
  refine .emptied ⟨⟨3, .missingEquals⟩, by decide, rfl⟩ (Text.trims_iff.mpr (by decide)) ?_
  exact .kept (by decide) (.kept (by decide) .nil)

end EditorConfig.Document
