import EditorConfig.Proofs.Glob.Constructs
/-!
# Reading a pattern text

The reader is unfolded at the first construct of a text, as the language is. What it reads then
matches the texts of the language, whatever precedes the text and however many values were counted
before; for a glob, the candidate and the leading separator are added.
-/
namespace EditorConfig.Glob

namespace Reader

variable {limit count : Nat} {prev : Option Char} {g t inner rest : List Char}

/-! ## The reader's equations -/

/-- Puts an atom in front of what is read. -/
def onto (a : Atom) : Except ReadError (Pattern × Nat) → Except ReadError (Pattern × Nat) :=
  Except.map fun (e, n) => (.atom a e, n)

theorem afterSeparator_iff : afterSeparator prev = true ↔ AtSegmentStart prev := by
  cases prev <;> simp [afterSeparator, AtSegmentStart]

variable [Engine]

theorem readFrom_segment (single : g.head? ≠ some '*') :
    readFrom limit prev ('*' :: g) count = onto .segment (readFrom limit (some '*') g count) := by
  rw [readFrom]
  · rfl
  · rintro r rfl
    exact single rfl

theorem readFrom_directories (run : t.dropWhile (· == '*') = '/' :: g)
    (start : AtSegmentStart prev) : readFrom limit prev ('*' :: '*' :: t) count =
      onto .directories (readFrom limit (some '/') g count) := by
  rw [readFrom]
  split
  · next r hr =>
    obtain ⟨-, rfl⟩ := List.cons.inj (hr.symm.trans run)
    rw [if_pos (afterSeparator_iff.mpr start)]
    rfl
  · next hr => exact (hr g run).elim

theorem readFrom_anything
    (other : ¬ (AtSegmentStart prev ∧ (t.dropWhile (· == '*')).head? = some '/')) :
    readFrom limit prev ('*' :: '*' :: t) count =
      onto .anything (readFrom limit (some '*') (t.dropWhile (· == '*')) count) := by
  rw [readFrom]
  split
  · next r hr =>
    have inside : ¬ afterSeparator prev = true :=
      fun h => other ⟨afterSeparator_iff.mp h, congrArg List.head? hr⟩
    rw [if_neg inside, hr]
    rfl
  · rfl

theorem readFrom_unclosed (h : Bracket.read t = .unclosed) :
    readFrom limit prev ('[' :: t) count = .error .unclosedClass := by
  rw [readFrom]
  split
  · rfl
  · next hp => cases h.symm.trans hp
  · next hs => cases h.symm.trans hs

theorem readFrom_plainBracket (h : Bracket.read t = .plain) :
    readFrom limit prev ('[' :: t) count =
      onto (.char '[') (readFrom limit (some '[') t count) := by
  rw [readFrom]
  split
  · next hu => cases h.symm.trans hu
  · rfl
  · next hs => cases h.symm.trans hs

theorem readFrom_bracket {set : CharSet} (h : Bracket.read t = .set set rest) :
    readFrom limit prev ('[' :: t) count =
      onto (.oneOf set) (readFrom limit (some ']') rest count) := by
  rw [readFrom]
  split
  · next hu => cases h.symm.trans hu
  · next hp => cases h.symm.trans hp
  · next hs =>
    obtain ⟨rfl, rfl⟩ := Bracket.Reading.set.inj (h.symm.trans hs)
    rfl

theorem readFrom_plainBrace (h : ¬ OpensGroup t) :
    readFrom limit prev ('{' :: t) count =
      onto (.char '{') (readFrom limit (some '{') t count) := by
  rw [opensGroup_iff] at h
  rw [readFrom]
  split
  · rfl
  · next hc =>
    split
    · next hr => exact (h ⟨_, _, hc, Or.inl ⟨_, hr⟩⟩).elim
    · split
      · next hs => exact (h ⟨_, _, hc, Or.inr (by simp [hs])⟩).elim
      · rfl

theorem readFrom_numeral {range : Numerals} (hclose : Braces.close? 0 t = some (inner, rest))
    (hrange : Numerals.parse? inner = some range) :
    readFrom limit prev ('{' :: t) count =
      match writeOut limit count range with
      | .error e => .error e
      | .ok n => onto (.numeral range.ascending) (readFrom limit (some '}') rest n) := by
  rw [readFrom]
  split
  · next hc => cases hclose.symm.trans hc
  · next hc =>
    obtain ⟨rfl, rfl⟩ := Prod.mk.inj (Option.some.inj (hc.symm.trans hclose))
    split
    · next hr =>
      obtain rfl := Option.some.inj (hr.symm.trans hrange)
      rfl
    · next hr => cases hrange.symm.trans hr

theorem readFrom_choice (hclose : Braces.close? 0 t = some (inner, rest))
    (hrange : Numerals.parse? inner = none) {first second : List Char} {others : List (List Char)}
    (hsplit : Braces.split 0 inner = first :: second :: others) :
    readFrom limit prev ('{' :: t) count =
      match readAll limit first (second :: others) count with
      | .error e => .error e
      | .ok (body, n) =>
        (readFrom limit (some '}') rest n).map fun (e, n) => (.group body e, n) := by
  rw [readFrom]
  split
  · next hc => cases hclose.symm.trans hc
  · next hc =>
    obtain ⟨rfl, rfl⟩ := Prod.mk.inj (Option.some.inj (hc.symm.trans hclose))
    split
    · next hr => cases hrange.symm.trans hr
    · split
      · next hs =>
        obtain ⟨rfl, hs⟩ := List.cons.inj (hs.symm.trans hsplit)
        obtain ⟨rfl, rfl⟩ := List.cons.inj hs
        rfl
      · next hs => exact (hs _ _ _ hsplit).elim

theorem readFrom_ordinary {c : Char} (plain : c ∉ ['\\', '?', '*', '[', '{']) :
    readFrom limit prev (c :: g) count = onto (.char c) (readFrom limit (some c) g count) := by
  simp only [List.mem_cons, List.not_mem_nil, or_false, not_or] at plain
  rw [readFrom]
  · rfl
  all_goals simp_all

/-! ## The texts of what is read -/

omit [Engine] in
theorem map_eq_ok {α β ε : Type} {f : α → β} {x : Except ε α} {y : β} :
    x.map f = .ok y ↔ ∃ a, x = .ok a ∧ f a = y := by
  cases x <;> simp [Except.map]

/-- Whatever is read matches the texts of `L`. -/
def Faithful (x : Except ReadError (Pattern × Nat)) (L : List Char → Prop) : Prop :=
  ∀ e n, x = .ok (e, n) → ∀ s, e.Matches s ↔ L s

omit [Engine] in
theorem Faithful.onto {x : Except ReadError (Pattern × Nat)} {L M : List Char → Prop} {a : Atom}
    (h : Faithful x L) (then_iff : ∀ s, M s ↔ Then a.Matches L s) :
    Faithful (onto a x) M := by
  intro e n he s
  obtain ⟨⟨e', n'⟩, hx, he⟩ := map_eq_ok.mp he
  obtain ⟨rfl, rfl⟩ := Prod.mk.inj he
  rw [then_iff]
  exact exists₂_congr fun u v => and_congr_right fun _ => and_congr_right fun _ => h e' n' hx v

/-- The induction is the reader's own; alternatives are read like patterns, one after another. -/
theorem readFrom_faithful (limit : Nat) (prev : Option Char) (g : List Char) (count : Nat) :
    Faithful (readFrom limit prev g count) (Denotes prev g) := by
  induction prev, g, count using fun motive => readFrom.induct limit motive
    fun first others count => Faithful (readAll limit first others count)
      fun s => ∃ b ∈ first :: others, Denotes none b s with
  | case1 prev count =>
    intro e n h s
    rw [readFrom] at h
    obtain ⟨rfl, rfl⟩ := Prod.mk.inj (Except.ok.inj h)
    exact denotes_nil.symm
  | case2 prev count =>
    intro e n h s
    rw [readFrom] at h
    obtain ⟨rfl, rfl⟩ := Prod.mk.inj (Except.ok.inj h)
    rw [denotes_lastBackslash]
    exact then_char.trans (by simp [Pattern.Matches])
  | case3 prev count c g ih =>
    rw [readFrom]
    exact ih.onto fun _ => denotes_escaped
  | case4 prev count g ih =>
    rw [readFrom]
    exact ih.onto fun _ => denotes_anyChar
  | case5 prev count t g run start ih =>
    have start := afterSeparator_iff.mp start
    rw [readFrom_directories run start]
    exact ih.onto fun _ => denotes_directories run start
  | case6 prev count t g run inside ih =>
    have other : ¬ (AtSegmentStart prev ∧ (t.dropWhile (· == '*')).head? = some '/') :=
      fun h => inside (afterSeparator_iff.mpr h.1)
    rw [readFrom_anything other]
    exact Faithful.onto (run ▸ ih) fun _ => denotes_anything other
  | case7 prev count t single ih =>
    have other : ¬ (AtSegmentStart prev ∧ (t.dropWhile (· == '*')).head? = some '/') := by
      rintro ⟨-, h⟩
      obtain ⟨r, hr⟩ := List.head?_eq_some_iff.mp h
      exact single r hr
    rw [readFrom_anything other]
    exact ih.onto fun _ => denotes_anything other
  | case8 prev count g single ih =>
    have hg : g.head? ≠ some '*' := by
      intro h
      obtain ⟨r, hr⟩ := List.head?_eq_some_iff.mp h
      exact single r hr
    rw [readFrom_segment hg]
    exact ih.onto fun _ => denotes_segment hg
  | case9 prev count t unclosed =>
    intro e n h s
    rw [readFrom_unclosed unclosed] at h
    cases h
  | case10 prev count t plain ih =>
    rw [readFrom_plainBracket plain]
    exact ih.onto fun _ => denotes_plainBracket plain
  | case11 prev count t set g closed ih =>
    rw [readFrom_bracket closed]
    exact ih.onto fun _ => denotes_bracket closed
  | case12 prev count t unclosed ih =>
    have plain : ¬ OpensGroup t := by
      rw [opensGroup_iff]
      rintro ⟨inner, rest, hclose, -⟩
      cases unclosed.symm.trans hclose
    rw [readFrom_plainBrace plain]
    exact ih.onto fun _ => denotes_plainBrace plain
  | case13 prev count t inner g closed range hrange err refused =>
    intro e n h s
    rw [readFrom_numeral closed hrange, refused] at h
    cases h
  | case14 prev count t inner g closed range hrange m counted ih =>
    rw [readFrom_numeral closed hrange, counted]
    refine ih.onto fun s => (denotes_numeral closed hrange).trans ?_
    simp only [Atom.Matches, Numerals.spells_ascending]
  | case15 prev count t inner g closed hrange first second others hsplit err herr _ =>
    intro e n h s
    rw [readFrom_choice closed hrange hsplit, herr] at h
    cases h
  | case16 prev count t inner g closed hrange first second others hsplit body m hbody ihb ih =>
    intro e n h s
    rw [readFrom_choice closed hrange hsplit, hbody] at h
    obtain ⟨⟨rest, n'⟩, hrest, he⟩ := map_eq_ok.mp h
    obtain ⟨rfl, rfl⟩ := Prod.mk.inj he
    rw [denotes_choice closed hrange (by simp [hsplit]), hsplit]
    exact exists₂_congr fun u v => and_congr_right fun _ =>
      and_congr (ihb body m hbody u) (ih rest n' hrest v)
  | case17 prev count t inner g closed hrange single ih =>
    have plain : ¬ OpensGroup t := by
      rw [opensGroup_iff]
      rintro ⟨inner', rest, hclose, h⟩
      obtain ⟨rfl, rfl⟩ := Prod.mk.inj (Option.some.inj (closed.symm.trans hclose))
      rcases h with ⟨range, hr⟩ | several
      · cases hrange.symm.trans hr
      · match hs : Braces.split 0 inner with
        | [] => simp [hs] at several
        | [b] => simp [hs] at several
        | first :: second :: others => exact single _ _ _ hs
    rw [readFrom_plainBrace plain]
    exact ih.onto fun _ => denotes_plainBrace plain
  | case18 prev count c g lone escape question stars star bracket brace ih =>
    have plain : c ∉ ['\\', '?', '*', '[', '{'] := by
      have escape : c ≠ '\\' := by
        intro h
        cases g with
        | nil => exact lone h rfl
        | cons d g => exact escape d g h rfl
      simp only [List.mem_cons, List.not_mem_nil, or_false, not_or]
      exact ⟨escape, question, star, bracket, brace⟩
    rw [readFrom_ordinary plain]
    exact ih.onto fun _ => denotes_ordinary plain
  | case19 first count ih =>
    intro e n h s
    rw [readAll] at h
    simpa using ih e n h s
  | case20 first count second others err herr _ =>
    intro e n h s
    rw [readAll, herr] at h
    cases h
  | case21 first count second others left m hleft ihl ihr =>
    intro e n h s
    rw [readAll, hleft] at h
    obtain ⟨⟨right, n'⟩, hright, he⟩ := map_eq_ok.mp h
    obtain ⟨rfl, rfl⟩ := Prod.mk.inj he
    have either := or_congr (ihl left m hleft s) (ihr right n' hright s)
    exact either.trans
      (List.exists_mem_cons_iff (Denotes none · s) first (second :: others)).symm

end Reader

/-! ## Globs -/

theorem isBasenameOnly_iff {text : String} : isBasenameOnly text = true ↔ '/' ∉ text.toList := by
  simp [isBasenameOnly]

theorem basename_of_no_separator {s : List Char} (h : '/' ∉ s) : basename s = s := by
  have inside : ∀ c ∈ s.reverse, (c != '/') = true := by
    intro c hc
    exact bne_iff_ne.mpr fun he => h (he ▸ List.mem_reverse.mp hc)
  rw [basename, List.takeWhile_eq_self_iff.mpr inside, List.reverse_reverse]

theorem basename_append {c : List Char} (h : '/' ∉ c) (directory : List Char) :
    basename (directory ++ '/' :: c) = c := by
  have inside : ∀ d ∈ c.reverse, (d != '/') = true := by
    intro d hd
    exact bne_iff_ne.mpr fun he => h (he ▸ List.mem_reverse.mp hd)
  rw [basename, List.reverse_append, List.reverse_cons, List.append_assoc,
    List.takeWhile_append_of_pos inside]
  simp

theorem exists_directory {s : List Char} (h : '/' ∈ s) :
    ∃ directory c, s = directory ++ '/' :: c ∧ '/' ∉ c := by
  obtain ⟨front, back, hs, hfront⟩ := List.eq_append_cons_of_mem (List.mem_reverse.mpr h)
  refine ⟨back.reverse, front.reverse, ?_, by simpa using hfront⟩
  simpa using congrArg List.reverse hs

/-- The candidate of a path is what the glob looks at. -/
theorem candidate_iff {g : Glob} {path : String} {c : List Char} :
    Candidate g.text.toList path.toList c ↔ c = g.candidate path := by
  unfold candidate
  by_cases separator : '/' ∈ g.text.toList
  · have : isBasenameOnly g.text = false := by
      rw [← Bool.not_eq_true, isBasenameOnly_iff]
      exact not_not_intro separator
    simp [Candidate, separator, this]
  · rw [if_pos (isBasenameOnly_iff.mpr separator)]
    constructor
    · rintro (⟨h, -⟩ | ⟨-, hc, rfl | ⟨directory, hd⟩⟩)
      · exact (separator h).elim
      · exact (basename_of_no_separator hc).symm
      · rw [hd, basename_append hc]
    · rintro rfl
      by_cases hp : '/' ∈ path.toList
      · obtain ⟨directory, c, hd, hc⟩ := exists_directory hp
        rw [hd, basename_append hc]
        exact Or.inr ⟨separator, hc, Or.inr ⟨directory, rfl⟩⟩
      · rw [basename_of_no_separator hp]
        exact Or.inr ⟨separator, hp, Or.inl rfl⟩

theorem compile_ok [Engine] {text : String} {limit : Nat} {g : Glob}
    (h : compile text limit = .ok g) : g.text = text ∧
      ∃ n, Reader.readFrom limit none (body text.toList) 0 = .ok (g.pattern, n) := by
  unfold compile at h
  split at h
  · cases h
  · cases h
  · cases h
  next pattern hread =>
  obtain ⟨⟨e, n⟩, he, rfl⟩ := Reader.map_eq_ok.mp hread
  split at h
  · obtain rfl := Except.ok.inj h
    exact ⟨rfl, n, he⟩
  · cases h

/-- A glob matches a path exactly if the pattern text is not empty and the path's candidate is a
text, and not the empty one, of the language of the pattern without its leading separator. -/
theorem isMatch_iff_denotes [Engine] {text : String} {limit : Nat} {g : Glob}
    (compiled : compile text limit = .ok g) (path : String) :
    g.isMatch path = true ↔ text ≠ "" ∧
      ∃ c, Candidate text.toList path.toList c ∧ c ≠ [] ∧ Denotes none (body text.toList) c := by
  obtain ⟨rfl, n, hread⟩ := compile_ok compiled
  have language : ∀ c, g.pattern.accepts c = true ↔ Denotes none (body g.text.toList) c :=
    fun c => (g.pattern.accepts_iff c).trans (Reader.readFrom_faithful limit none _ 0 _ n hread c)
  have candidate : ∀ {P : List Char → Prop},
      (∃ c, Candidate g.text.toList path.toList c ∧ P c) ↔ P (g.candidate path) := by
    simp only [candidate_iff, exists_eq_left, implies_true]
  rw [candidate, isMatch, Bool.and_eq_true, language, Bool.not_eq_true', List.isEmpty_eq_false_iff]
  constructor
  · rintro ⟨hne, hd⟩
    refine ⟨?_, hne, hd⟩
    intro empty
    rw [empty] at hd
    exact hne (denotes_nil.mp hd)
  · exact fun h => h.2

theorem isMatch_iff_denotes_numbered : ∃ g, compile "/**/[!a]\x7b01..03\x7d" 3 = .ok g ∧
    (g.isMatch "x/b02" = true ↔ "/**/[!a]\x7b01..03\x7d" ≠ "" ∧
      ∃ c, Candidate "/**/[!a]\x7b01..03\x7d".toList "x/b02".toList c ∧ c ≠ [] ∧
        Denotes none (body "/**/[!a]\x7b01..03\x7d".toList) c) := by
  have compiled : compile "/**/[!a]\x7b01..03\x7d" 3 = .ok ⟨"/**/[!a]\x7b01..03\x7d",
      .atom .directories (.atom (.oneOf ⟨true, [('/', '/'), ('a', 'a')]⟩)
        (.atom (.numeral ⟨1, 3, some 2⟩) .nil))⟩ := by
    decide +kernel
  exact ⟨_, compiled, isMatch_iff_denotes compiled "x/b02"⟩

end EditorConfig.Glob
