import EditorConfig.Proofs.Glob.Choosing
import EditorConfig.Proofs.Text
/-!
# Bracket expressions in braces

Braces are closed and split without a look at bracket expressions. A bracket expression next to a
text of ordinary characters is one of two alternatives exactly if it is a branch by itself: commas
and braces among its members are escaped, or the braces have their partners and the commas stand
between them. Any other is cut in two and remains unclosed, or takes the closing brace away.

The program for a choice is larger than those for its alternatives, so it may be too large even
if they are not.
-/
namespace EditorConfig.Glob

/-- Two alternatives in braces. -/
def eitherOf (first second : List Char) : String :=
  String.ofList ('{' :: (first ++ ',' :: (second ++ ['}'])))

/-- The choice between two texts compiles and matches what one of them matches. -/
def Chooses [Engine] (limit : Nat) (first second : List Char) : Prop :=
  (∃ g, compile (eitherOf first second) limit = .ok g) ∧ ∀ path,
    Accepts limit (eitherOf first second) path ↔
      Accepts limit (String.ofList first) path ∨ Accepts limit (String.ofList second) path

variable {limit : Nat} {c : Char} {g s t u x more rest : List Char}
  {first second : List Char} {branches : List (List Char)} {negated : Bool} {body : List Piece}

/-! ## Bracket expressions that are branches -/

/-- What is not closed at the end of a bracket expression is not closed before. -/
theorem Bracket.unclosed_of_prefix (closed : Bracketed t negated body [])
    (cut : t = u ++ c :: more) : Bracket.read u = .unclosed := by
  by_contra h
  obtain ⟨negated', body', rest, early⟩ := Bracket.exists_bracketed h
  have late : Bracketed t negated' body' (rest ++ c :: more) := by
    obtain ⟨mark, rfl, sign⟩ := early.written
    refine ⟨⟨mark, ?_, sign⟩, early.nonempty, early.unescaped, early.inside⟩
    rw [cut]
    simp
  have ends : ∀ {negated body rest}, Bracketed t negated body rest →
      Bracket.close? true (Bracket.negation t).2 = some (body.flatMap Piece.text, rest) := by
    intro negated body rest h
    rw [Bracket.negation_of_bracketed h]
    exact Bracket.close?_written rest ⟨fun _ => h.nonempty, h.unescaped, h.inside⟩
  have same := (ends closed).symm.trans (ends late)
  have empty := (Prod.mk.inj (Option.some.inj same)).2
  simp at empty

theorem branch_of_members (h : ∀ p ∈ body, p ≠ .plain '\\')
    (apart : ∀ p ∈ body, p ≠ .plain ',' ∧ p ≠ .plain '{' ∧ p ≠ .plain '}') :
    Branch (body.flatMap Piece.text ++ [']']) := by
  induction body with
  | nil => exact .plain (by decide) (by decide) (by decide) (by decide) .nil
  | cons p body ih =>
    obtain ⟨hp, hbody⟩ := List.forall_mem_cons.mp h
    obtain ⟨⟨comma, opening, closing⟩, happart⟩ := List.forall_mem_cons.mp apart
    have behind := ih hbody happart
    cases p with
    | escaped c => exact .escaped behind
    | plain c =>
      exact .plain (fun h => hp (h ▸ rfl)) (fun h => opening (h ▸ rfl)) (fun h => closing (h ▸ rfl))
        (fun h => comma (h ▸ rfl)) behind

theorem branch_of_bracketed (closed : Bracketed t negated body [])
    (apart : ∀ p ∈ body, p ≠ .plain ',' ∧ p ≠ .plain '{' ∧ p ≠ .plain '}') : Branch ('[' :: t) := by
  have members := branch_of_members closed.unescaped apart
  have plain : ∀ {c : Char} {s : List Char}, c ∈ ['[', '!', '^'] → Branch s → Branch (c :: s) := by
    intro c s hc hs
    have : c ∉ ['\\', '{', '}', ','] := by
      simp only [List.mem_cons, List.not_mem_nil, or_false] at hc
      rcases hc with rfl | rfl | rfl <;> decide
    simp only [List.mem_cons, List.not_mem_nil, or_false, not_or] at this
    exact .plain this.1 this.2.1 this.2.2.1 this.2.2.2 hs
  obtain ⟨mark, rfl, ⟨-, rfl | rfl⟩ | ⟨-, rfl, -⟩⟩ := closed.written
  · exact plain (by decide) (plain (by decide) members)
  · exact plain (by decide) (plain (by decide) members)
  · exact plain (by decide) members

/-! ## Choices that work -/

section
variable [Engine]

theorem chooses_of_branches (hfirst : Branch first) (hsecond : Branch second)
    (readsFirst : Reader.Reads limit 4 none first) (readsSecond : Reader.Reads limit 4 none second)
    (insideFirst : '/' ∉ first) (insideSecond : '/' ∉ second)
    (fitsFirst : Fits limit (String.ofList first)) (fitsSecond : Fits limit (String.ofList second))
    (fits : Fits limit (eitherOf first second)) : Chooses limit first second := by
  have choices : Choices (first ++ ',' :: second) [first, second] :=
    ⟨by simp [List.intercalate_cons_cons], le_rfl, by simp [hfirst, hsecond]⟩
  have text : '{' :: (first ++ ',' :: (second ++ ['}'])) =
      '{' :: ((first ++ ',' :: second) ++ '}' :: []) := by
    simp
  have inside : '/' ∉ '{' :: ((first ++ ',' :: second) ++ '}' :: []) := by
    simp [insideFirst, insideSecond]
  have reads : Reader.Reads limit 7 none _ :=
    .choices choices (by simp [readsFirst, readsSecond]) Reader.reads_nil
  rw [eitherOf, text] at fits
  have compiled := (exists_compile_segment_iff inside reads (by decide)).mpr fits
  have compiledFirst :=
    (exists_compile_segment_iff insideFirst readsFirst (by decide)).mpr fitsFirst
  have compiledSecond :=
    (exists_compile_segment_iff insideSecond readsSecond (by decide)).mpr fitsSecond
  have whole : ∀ s, Denotes none ('{' :: ((first ++ ',' :: second) ++ '}' :: [])) s ↔
      Denotes none first s ∨ Denotes none second s := by
    intro s
    rw [denotes_choices choices]
    simp [Then, denotes_nil]
  rw [Chooses, eitherOf, text]
  refine ⟨compiled, fun path => ?_⟩
  rw [accepts_segment inside, accepts_segment insideFirst, accepts_segment insideSecond, whole]
  simp only [compiled, compiledFirst, compiledSecond, true_and, and_or_left]

omit [Engine] in
theorem no_separator_of_bracketed (closed : Bracketed t negated body rest) (inside : '/' ∉ t) :
    ¬ ∃ p ∈ body, p.char = '/' := by
  obtain ⟨mark, rfl, -⟩ := closed.written
  rw [← Bracket.mem_written_iff body (by decide)]
  exact fun h => inside (by simp only [List.mem_append]; exact .inl (.inr h))

theorem reads_bracket {e : Glob} (closed : Bracketed t negated body []) (inside : '/' ∉ t)
    (compiled : compile (String.ofList ('[' :: t)) limit = .ok e) :
    Reader.Reads limit 4 none ('[' :: t) := by
  have set := Bracket.read_of_bracketed closed
  rw [if_neg (no_separator_of_bracketed closed inside)] at set
  have construct : ∀ count, Reader.readFrom limit none ('[' :: t) count =
      Reader.onto (.oneOf (Bracket.charSet negated body))
        (Reader.readFrom limit (some ']') [] count) :=
    fun _ => Reader.readFrom_bracket set
  obtain ⟨-, n, hread⟩ := compile_ok compiled
  have ordered := ordered_of_compile compiled
  rw [String.toList_ofList, body_cons (by decide), construct, Reader.readFrom] at hread
  obtain ⟨he, -⟩ := Prod.mk.inj (Except.ok.inj hread)
  rw [← he, Pattern.wellOrdered, Bool.and_eq_true] at ordered
  have shallow : (Atom.oneOf (Bracket.charSet negated body)).depth ≤ 4 := by
    rw [Atom.depth]
    split <;> decide
  exact Reader.reads_nil.onto ordered.1 shallow construct

/-! ## Choices that do not -/

/-- Braces that are ordinary characters match no text of the alternatives. -/
theorem not_accepts_plainBrace (plain : ¬ OpensGroup t) (inside : '/' ∉ t) (brace : '{' ∉ x)
    (segment : '/' ∉ x) : ¬ Accepts limit (String.ofList ('{' :: t)) (String.ofList x) := by
  rw [accepts_segment (by simpa using inside), String.toList_ofList,
    basename_of_no_separator segment, denotes_plainBrace plain, then_char]
  rintro ⟨-, -, u, rfl, -⟩
  exact brace List.mem_cons_self

theorem readAll_error {b : List Char} {others : List (List Char)} (member : b ∈ first :: others)
    (h : ∀ count, ∃ e, Reader.readFrom limit none b count = .error e) (count : Nat) :
    ∃ e, Reader.readAll limit first others count = .error e := by
  induction others generalizing first count with
  | nil =>
    obtain rfl := List.mem_singleton.mp member
    obtain ⟨e, he⟩ := h count
    exact ⟨e, by rw [Reader.readAll, he]⟩
  | cons second others ih =>
    rw [Reader.readAll]
    cases hfirst : Reader.readFrom limit none first count with
    | error e => exact ⟨e, rfl⟩
    | ok found =>
      have behind : b ∈ second :: others := by
        rcases List.mem_cons.mp member with rfl | behind
        · obtain ⟨e, he⟩ := h count
          cases he.symm.trans hfirst
        · exact behind
      obtain ⟨e, he⟩ := ih behind found.2
      exact ⟨e, by simp only [he]; rfl⟩

/-- A choice with an alternative that is not closed does not compile. -/
theorem not_compiles_of_unclosed {inner : List Char} (choices : Choices inner branches)
    (member : '[' :: u ∈ branches) (unclosed : Bracket.read u = .unclosed) :
    ¬ ∃ e, compile (String.ofList ('{' :: (inner ++ '}' :: rest))) limit = .ok e := by
  rintro ⟨e, compiled⟩
  obtain ⟨-, n, hread⟩ := compile_ok compiled
  have several := choices.several
  match branches with
  | first :: second :: others =>
    obtain ⟨e', he'⟩ : ∃ e', Reader.readAll limit first (second :: others) 0 = .error e' :=
      readAll_error member (fun _ => ⟨_, Reader.readFrom_unclosed unclosed⟩) 0
    rw [String.toList_ofList, body_cons (by decide),
      Reader.readFrom_choice (Reader.close?_choices choices) (parse?_choices choices)
        (Reader.split_choices choices), he'] at hread
    cases hread

/-- What the braces cut off the front of a bracket expression is all of it, or it is not closed and
nothing compiles. -/
theorem branch_of_front {inner b : List Char} (closed : Bracketed t negated body [])
    (choices : Choices inner branches) (member : b ∈ branches) (nonempty : b ≠ [])
    (cut : '[' :: t = b ++ more)
    (compiled : ∃ e, compile (String.ofList ('{' :: (inner ++ '}' :: rest))) limit = .ok e) :
    Branch ('[' :: t) := by
  cases more with
  | nil =>
    rw [cut, List.append_nil]
    exact choices.branch b member
  | cons c more =>
    cases b with
    | nil => exact (nonempty rfl).elim
    | cons d u =>
      obtain ⟨rfl, behind⟩ := List.cons.inj cut
      have unclosed := Bracket.unclosed_of_prefix closed behind
      exact (not_compiles_of_unclosed choices member unclosed compiled).elim

/-! ## The alternatives that braces offer -/

omit [Engine] in
theorem not_numeralRange {inner : List Char} (hc : c ∈ inner) (other : c ∈ ['[', ',']) :
    ¬ ∃ low high width, NumeralRange inner low high width := by
  rintro ⟨low, high, width, left, right, m, n, rfl, hl, hr, -⟩
  simp only [List.mem_cons, List.not_mem_nil, or_false] at other
  rcases other with rfl | rfl <;> exact not_mem_numerals hl hr (by decide) hc

omit [Engine] in
theorem exists_more {v w b : List Char} (apart : c ∉ v) (h : u ++ c :: v = b ++ c :: w) :
    ∃ more, u = b ++ more := by
  rcases List.append_eq_append_iff.mp h with ⟨s, rfl, hs⟩ | ⟨s, hu, -⟩
  · cases s with
    | nil => exact ⟨[], by simp⟩
    | cons d s =>
      obtain ⟨-, hv⟩ := List.cons.inj hs
      exact (apart (by simp [hv])).elim
  · exact ⟨s, hu⟩

omit [Engine] in
/-- The first comma of the inside of a choice ends its first alternative. -/
theorem exists_comma {inner : List Char} (h : inner = [','].intercalate branches)
    (several : 2 ≤ branches.length) :
    ∃ b others, branches = b :: others ∧ inner = b ++ ',' :: [','].intercalate others := by
  match branches with
  | b :: b' :: others =>
    exact ⟨b, b' :: others, rfl, by rw [h, List.intercalate_cons_cons, List.append_assoc]; rfl⟩

/-- With a bracket expression in front, braces offer all of it or do not compile. -/
theorem branch_of_first (closed : Bracketed t negated body []) (comma : ',' ∉ x)
    (opens : OpensGroup (('[' :: t) ++ ',' :: (x ++ ['}'])))
    (compiled : ∃ e, compile (eitherOf ('[' :: t) x) limit = .ok e) : Branch ('[' :: t) := by
  obtain ⟨inner, rest, written, range | ⟨branches, choices⟩⟩ := opens
  · have bracket : '[' ∈ inner := by
      cases inner with
      | nil => cases written
      | cons d inner =>
        obtain ⟨rfl, -⟩ := List.cons.inj written
        exact List.mem_cons_self
    exact (not_numeralRange bracket (by decide) range).elim
  · rw [eitherOf, written] at compiled
    obtain ⟨b, others, rfl, rfl⟩ := exists_comma choices.written choices.several
    rw [List.append_assoc] at written
    obtain ⟨more, cut⟩ := exists_more (by simp [comma]) written
    have nonempty : b ≠ [] := by
      rintro rfl
      cases written
    exact branch_of_front closed choices List.mem_cons_self nonempty cut compiled

omit [Engine] in
/-- Behind a text of ordinary characters the inside of braces goes on with a comma. -/
theorem exists_behind {inner : List Char} (closing : '}' ∉ x)
    (h : x ++ ',' :: (g ++ ['}']) = inner ++ '}' :: rest) :
    ∃ s, inner = x ++ ',' :: s ∧ g ++ ['}'] = s ++ '}' :: rest := by
  rcases List.append_eq_append_iff.mp h with ⟨s, rfl, hs⟩ | ⟨s, rfl, hs⟩
  · cases s with
    | nil => cases hs
    | cons d s =>
      obtain ⟨rfl, behind⟩ := List.cons.inj hs
      exact ⟨s, rfl, behind⟩
  · cases s with
    | nil => cases hs
    | cons d s =>
      obtain ⟨rfl, -⟩ := List.cons.inj hs
      exact (closing (by simp)).elim

omit [Engine] in
/-- Behind a branch and a comma the second alternative begins. -/
theorem exists_second (choices : Choices (x ++ ',' :: s) branches) (hx : Branch x) :
    ∃ b others, branches = x :: b :: others ∧ s = [','].intercalate (b :: others) := by
  have hsplit := Reader.split_choices choices
  rw [Braces.split_branch hx] at hsplit
  cases behind : Braces.split 0 s with
  | nil => exact (Braces.split_ne_nil 0 s behind).elim
  | cons b others =>
    have parts : branches = x :: b :: others := by
      rw [← hsplit]
      simp [Braces.split, Braces.onFirst, behind]
    have written := choices.written
    rw [parts, List.intercalate_cons_cons, List.append_assoc] at written
    exact ⟨b, others, parts, List.tail_eq_of_cons_eq (List.append_cancel_left written)⟩

/-- With a bracket expression at the end, braces offer all of it or do not compile. -/
theorem branch_of_second (closed : Bracketed t negated body []) (hx : Literal x)
    (opens : OpensGroup (x ++ ',' :: (('[' :: t) ++ ['}'])))
    (compiled : ∃ e, compile (eitherOf x ('[' :: t)) limit = .ok e) : Branch ('[' :: t) := by
  have closing : '}' ∉ x := fun h => hx '}' h (by decide)
  obtain ⟨inner, rest, written, range | ⟨branches, choices⟩⟩ := opens
  · obtain ⟨s, rfl, -⟩ := exists_behind closing written
    exact (not_numeralRange (c := ',') (by simp) (by decide) range).elim
  · rw [eitherOf, written] at compiled
    obtain ⟨s, rfl, behind⟩ := exists_behind closing written
    obtain ⟨b, others, rfl, rfl⟩ := exists_second choices hx.wild.branch
    obtain ⟨tail, hb, head⟩ := Text.exists_behind_first ',' b others
    rw [hb] at behind
    have nonempty : b ≠ [] := by
      rintro rfl
      rcases head with rfl | head
      · cases behind
      · obtain ⟨w, rfl⟩ := List.head?_eq_some_iff.mp head
        cases behind
    obtain ⟨more, cut⟩ := exists_more (by simp) behind
    rw [List.append_assoc] at cut
    exact branch_of_front closed choices (by simp) nonempty cut compiled

/-- A bracket expression and a text of ordinary characters are the alternatives of one choice, in
either order, exactly if the bracket expression is a branch by itself and the program for the choice
is not too large. It is a branch if the commas and braces among its members are escaped. -/
theorem bracket_in_choice {limit : Nat} {e : Glob} (closed : Bracketed t negated body [])
    (inside : '/' ∉ t) (compiled : compile (String.ofList ('[' :: t)) limit = .ok e)
    (hx : Literal x) (nonempty : x ≠ []) (segment : '/' ∉ x) (fits : Fits limit (String.ofList x)) :
    (Chooses limit ('[' :: t) x ↔ Branch ('[' :: t) ∧ Fits limit (eitherOf ('[' :: t) x)) ∧
      (Chooses limit x ('[' :: t) ↔ Branch ('[' :: t) ∧ Fits limit (eitherOf x ('[' :: t))) ∧
      ((∀ p ∈ body, p ≠ .plain ',' ∧ p ≠ .plain '{' ∧ p ≠ .plain '}') → Branch ('[' :: t)) := by
  have readsX : Reader.Reads limit 4 none x := Reader.reads_literal hx
  have readsBracket := reads_bracket closed inside compiled
  have insideBracket : '/' ∉ '[' :: t := by simpa using inside
  have fitsBracket := fits_of_compile compiled
  have comma : ',' ∉ x := fun h => hx ',' h (by decide)
  have brace : '{' ∉ x := fun h => hx '{' h (by decide)
  have self : Accepts limit (String.ofList x) (String.ofList x) := by
    rw [accepts_segment segment, String.toList_ofList, basename_of_no_separator segment,
      denotes_literal hx]
    exact ⟨(exists_compile_segment_iff segment readsX (by decide)).mpr fits, nonempty, rfl⟩
  -- Braces that open no choice stand for themselves, which `x` does not match.
  have opens : ∀ {s}, '/' ∉ s → Accepts limit (String.ofList ('{' :: s)) (String.ofList x) →
      OpensGroup s := by
    intro s hs accepts
    by_contra plain
    exact not_accepts_plainBrace plain hs brace segment accepts
  refine ⟨⟨fun chooses => ?_, fun ⟨branch, whole⟩ => ?_⟩,
    ⟨fun chooses => ?_, fun ⟨branch, whole⟩ => ?_⟩, branch_of_bracketed closed⟩
  · obtain ⟨_, whole⟩ := chooses.1
    refine ⟨branch_of_first closed comma (opens ?_ ((chooses.2 _).mpr (.inr self))) chooses.1,
      fits_of_compile whole⟩
    simp [inside, segment]
  · exact chooses_of_branches branch hx.wild.branch readsBracket readsX insideBracket segment
      fitsBracket fits whole
  · obtain ⟨_, whole⟩ := chooses.1
    refine ⟨branch_of_second closed hx (opens ?_ ((chooses.2 _).mpr (.inl self))) chooses.1,
      fits_of_compile whole⟩
    simp [inside, segment]
  · exact chooses_of_branches hx.wild.branch branch readsX readsBracket segment insideBracket fits
      fitsBracket whole

end

theorem bracket_in_choice_escaped :
    Bracketed "!\\,]".toList true [.escaped ','] [] ∧
    (∃ e, compile (String.ofList ('[' :: "!\\,]".toList)) 0 = .ok e) ∧ Literal "ab".toList ∧
    Fits 0 (String.ofList "ab".toList) ∧
    eitherOf ('[' :: "!\\,]".toList) "ab".toList = "\x7b[!\\,],ab\x7d" ∧
    Chooses 0 ('[' :: "!\\,]".toList) "ab".toList ∧
    Chooses 0 "ab".toList ('[' :: "!\\,]".toList) := by
  have closed : Bracketed "!\\,]".toList true [.escaped ','] [] :=
    ⟨⟨['!'], by decide, .inl ⟨rfl, .inl rfl⟩⟩, by simp, by simp, by simp⟩
  have compiled : compile (String.ofList ('[' :: "!\\,]".toList)) 0 =
      .ok ⟨"[!\\,]", .atom (.oneOf ⟨true, [('/', '/'), (',', ',')]⟩) .nil⟩ := by
    decide +kernel
  have literal : Literal "ab".toList := by decide +kernel
  have fits : Fits 0 (String.ofList "ab".toList) := by decide +kernel
  obtain ⟨first, second, branch⟩ :=
    bracket_in_choice closed (by decide) compiled literal (by decide) (by decide) fits
  have escaped := branch (by simp)
  exact ⟨closed, ⟨_, compiled⟩, literal, fits, by decide, first.mpr ⟨escaped, by decide +kernel⟩,
    second.mpr ⟨escaped, by decide +kernel⟩⟩

/-- The comma cuts the bracket expression in two, though it is closed. -/
theorem unclosed_by_comma :
    matchesPath "[,]" "," = true ∧ matchesPath "x" "x" = true ∧
    eitherOf "[,]".toList "x".toList = "\x7b[,],x\x7d" ∧
    compile "\x7b[,],x\x7d" defaultLimit = .error (.unclosedClass "\x7b[,],x\x7d") := by
  have bracket : compile "[,]" defaultLimit =
      .ok ⟨"[,]", .atom (.oneOf ⟨false, [(',', ',')]⟩) .nil⟩ := by
    decide +kernel
  have letter : compile "x" defaultLimit = .ok ⟨"x", .atom (.char 'x') .nil⟩ := by decide +kernel
  refine ⟨?_, ?_, by decide, by decide +kernel⟩
  · rw [matchesPath, bracket]
    decide +kernel
  · rw [matchesPath, letter]
    decide +kernel

end EditorConfig.Glob
