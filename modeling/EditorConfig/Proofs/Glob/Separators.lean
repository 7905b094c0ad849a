import EditorConfig.Proofs.Glob.Reading
import Mathlib.Data.Char
/-!
# Separators

Without braces and double stars, every separator of a path that matches is written in the pattern,
with one exception: a plain bracket expression stands for all the characters of its ranges, and the
separator is one of them when a range begins before it and ends behind it. Such expressions match
more separators than are written, and nothing else does.
-/
namespace EditorConfig.Glob

/-- A range of a set that is not negated leads across the separator. -/
def CharSet.Crosses (set : CharSet) : Prop :=
  set.negated = false ∧ ∃ range ∈ set.ranges, range.1 < '/' ∧ '/' < range.2

/-- The sets that an atom chooses from. -/
def Atom.sets : Atom → List CharSet
  | oneOf set => [set]
  | _ => []

/-- The sets of all bracket expressions of a pattern. -/
def Pattern.sets : Pattern → List CharSet
  | nil => []
  | atom a rest => a.sets ++ rest.sets
  | group body rest => body.sets ++ rest.sets
  | either left right => left.sets ++ right.sets

/-! ## Languages with a number of separators -/

/-- Every text of `M` has the `n` separators that are written; those beyond them come from `sets`
that lead across the separator, and if there is such a set, some text has more. -/
structure Spans (M : List Char → Prop) (sets : List CharSet) (n : Nat) : Prop where
  least : ∀ u, M u → n ≤ u.count '/'
  exact : (∀ set ∈ sets, ¬ set.Crosses) → ∀ u, M u → u.count '/' = n
  more : (∃ set ∈ sets, set.Crosses) → ∀ u, M u → ∃ v, M v ∧ n < v.count '/'

namespace Spans

variable {L M : List Char → Prop} {A B : List CharSet} {m n : Nat}

/-- Where no set takes part, it is enough to count. -/
theorem of_count (h : ∀ u, M u → u.count '/' = n) : Spans M [] n :=
  ⟨fun u hu => Nat.le_of_eq (h u hu).symm, fun _ => h, by simp⟩

theorem nil : Spans Pattern.nil.Matches [] 0 := of_count fun _ hu => hu ▸ rfl

theorem append (h : Spans L A m) (h' : Spans M B n) : Spans (Then L M) (A ++ B) (m + n) := by
  refine ⟨?_, ?_, ?_⟩
  · rintro _ ⟨u, v, rfl, hu, hv⟩
    rw [List.count_append]
    exact Nat.add_le_add (h.least u hu) (h'.least v hv)
  · rintro none _ ⟨u, v, rfl, hu, hv⟩
    rw [List.forall_mem_append] at none
    rw [List.count_append, h.exact none.1 u hu, h'.exact none.2 v hv]
  · rintro ⟨set, hset, crosses⟩ _ ⟨u, v, rfl, hu, hv⟩
    -- One side has a text with more separators, the other side keeps what it has.
    rcases List.mem_append.mp hset with hset | hset
    · obtain ⟨u', hu', hmore⟩ := h.more ⟨set, hset, crosses⟩ u hu
      refine ⟨u' ++ v, ⟨u', v, rfl, hu', hv⟩, ?_⟩
      rw [List.count_append]
      exact Nat.add_lt_add_of_lt_of_le hmore (h'.least v hv)
    · obtain ⟨v', hv', hmore⟩ := h'.more ⟨set, hset, crosses⟩ v hv
      refine ⟨u ++ v', ⟨u, v', rfl, hu, hv'⟩, ?_⟩
      rw [List.count_append]
      exact Nat.add_lt_add_of_le_of_lt (h.least u hu) hmore

theorem char (c : Char) : Spans (Atom.char c).Matches [] ([c].count '/') := by
  refine of_count ?_
  rintro _ ⟨d, hd, rfl⟩
  rw [beq_iff_eq] at hd
  rw [hd]

theorem anyChar : Spans Atom.anyChar.Matches [] 0 := by
  refine of_count ?_
  rintro _ ⟨d, hd, rfl⟩
  exact List.count_eq_zero.mpr fun h => inSegment_iff.mp hd (List.mem_singleton.mp h).symm

theorem segment : Spans Atom.segment.Matches [] 0 :=
  of_count fun _ hu => List.count_eq_zero.mpr (run_inSegment_iff.mp hu)

end Spans

/-! ## Bracket expressions -/

namespace Bracket

/-- The ends of a range are characters that are listed. -/
theorem ends_of_mem_members {s : List (Char × Bool)} {range : Char × Char}
    (h : range ∈ members s) : (∃ a ∈ s, a.1 = range.1) ∧ ∃ b ∈ s, b.1 = range.2 := by
  fun_induction members s with
  | case1 low flag high flag' s ih =>
    rcases List.mem_cons.mp h with rfl | h
    · exact ⟨⟨(low, flag), by simp, rfl⟩, ⟨(high, flag'), by simp, rfl⟩⟩
    · obtain ⟨⟨a, ha, hlow⟩, b, hb, hhigh⟩ := ih h
      exact ⟨⟨a, by simp [ha], hlow⟩, ⟨b, by simp [hb], hhigh⟩⟩
  | case2 c flag s _ ih =>
    rcases List.mem_cons.mp h with rfl | h
    · exact ⟨⟨(c, flag), by simp, rfl⟩, ⟨(c, flag), by simp, rfl⟩⟩
    · obtain ⟨⟨a, ha, hlow⟩, b, hb, hhigh⟩ := ih h
      exact ⟨⟨a, by simp [ha], hlow⟩, ⟨b, by simp [hb], hhigh⟩⟩
  | case3 => cases h

theorem ends_ne_separator {body : List Piece} (inside : ∀ p ∈ body, p.char ≠ '/')
    {range : Char × Char} (h : range ∈ members (body.map Piece.flagged)) :
    range.1 ≠ '/' ∧ range.2 ≠ '/' := by
  have listed : ∀ a ∈ body.map Piece.flagged, a.1 ≠ '/' := by
    intro a ha
    obtain ⟨p, hp, rfl⟩ := List.mem_map.mp ha
    have := inside p hp
    cases p <;> exact this
  obtain ⟨⟨a, ha, hlow⟩, b, hb, hhigh⟩ := ends_of_mem_members h
  exact ⟨hlow ▸ listed a ha, hhigh ▸ listed b hb⟩

/-- A bracket expression that is read holds the separator only in a range that leads across it. -/
theorem contains_separator_iff {negated : Bool} {body : List Piece}
    (inside : ∀ p ∈ body, p.char ≠ '/') :
    (charSet negated body).contains '/' = true ↔ (charSet negated body).Crosses := by
  rw [contains_charSet]
  cases negated with
  | true => simp [Chosen, charSet, CharSet.Crosses]
  | false =>
    have plain : Chosen false body '/' ↔ Listed '/' body := by simp [Chosen]
    have crosses : (charSet false body).Crosses ↔
        ∃ r ∈ members (body.map Piece.flagged), r.1 < '/' ∧ '/' < r.2 := by
      simp [charSet, CharSet.Crosses]
    rw [plain, crosses, ← any_members_iff]
    refine exists_congr fun r => and_congr_right fun hr => ?_
    obtain ⟨hlow, hhigh⟩ := ends_ne_separator inside hr
    exact and_congr ⟨fun h => lt_of_le_of_ne h hlow, le_of_lt⟩
      ⟨fun h => lt_of_le_of_ne h (Ne.symm hhigh), le_of_lt⟩

/-- What a bracket expression takes up of a pattern text holds no separator. -/
theorem exists_front_of_read {t rest : List Char} {set : CharSet} (h : read t = .set set rest) :
    ∃ front negated body, t = front ++ rest ∧ '/' ∉ front ∧ set = charSet negated body ∧
      ∀ p ∈ body, p.char ≠ '/' := by
  obtain ⟨negated, body, closed, inside, rfl⟩ := read_eq_set_iff.mp h
  obtain ⟨mark, written, negation⟩ := closed.written
  refine ⟨mark ++ body.flatMap Piece.text ++ [']'], negated, body, by simp [written], ?_, rfl,
    inside⟩
  have marks : '/' ∉ mark := by
    rcases negation with ⟨-, rfl | rfl⟩ | ⟨-, rfl, -⟩ <;> simp
  have pieces : '/' ∉ body.flatMap Piece.text := by
    rw [mem_written_iff body (by decide)]
    rintro ⟨p, hp, hc⟩
    exact inside p hp hc
  simp [marks, pieces]

end Bracket

theorem Spans.oneOf {t rest : List Char} {set : CharSet} (h : Bracket.read t = .set set rest) :
    Spans (Atom.oneOf set).Matches [set] 0 := by
  obtain ⟨-, negated, body, -, -, rfl, inside⟩ := Bracket.exists_front_of_read h
  have separator : (Bracket.charSet negated body).contains '/' = true ↔
      (Bracket.charSet negated body).Crosses := Bracket.contains_separator_iff inside
  refine ⟨fun _ _ => Nat.zero_le _, ?_, ?_⟩
  · rintro none _ ⟨d, hd, rfl⟩
    refine List.count_eq_zero.mpr fun hmem => none _ List.mem_cons_self ?_
    rw [← separator, List.mem_singleton.mp hmem]
    exact hd
  · rintro ⟨_, hset, crosses⟩ _ _
    obtain rfl := List.mem_singleton.mp hset
    exact ⟨['/'], ⟨'/', separator.mpr crosses, rfl⟩, by simp⟩

/-! ## Reading -/

namespace Reader

/-- What is read has `n` separators, those of its sets apart. -/
def Counted (x : Except ReadError (Pattern × Nat)) (n : Nat) : Prop :=
  ∀ e m, x = .ok (e, m) → Spans e.Matches e.sets n

theorem Counted.behind {x : Except ReadError (Pattern × Nat)} {a : Atom} {rest : List Char}
    (h : Counted x (rest.count '/')) (front : List Char)
    (ha : Spans a.Matches a.sets (front.count '/')) :
    Counted (onto a x) ((front ++ rest).count '/') := by
  intro e k he
  obtain ⟨⟨e', k'⟩, hx, he⟩ := map_eq_ok.mp he
  obtain ⟨rfl, rfl⟩ := Prod.mk.inj he
  rw [List.count_append]
  exact ha.append (h e' k' hx)

/-- The induction is the reader's own; braces and double stars, and so alternatives, do not
occur. -/
theorem readFrom_counted [Engine] (limit : Nat) (prev : Option Char) (g : List Char) (count : Nat)
    (braces : '{' ∉ g) (stars : ¬ ['*', '*'] <:+: g) :
    Counted (readFrom limit prev g count) (g.count '/') := by
  -- What stands behind the first construct has no braces and double stars either.
  have onward : ∀ front rest : List Char, '{' ∉ front ++ rest → ¬ ['*', '*'] <:+: front ++ rest →
      '{' ∉ rest ∧ ¬ ['*', '*'] <:+: rest := by
    intro front rest hbraces hstars
    exact ⟨fun h => hbraces (List.mem_append_right front h),
      fun h => hstars (h.trans (List.suffix_append front rest).isInfix)⟩
  induction prev, g, count using fun motive => readFrom.induct limit motive fun _ _ _ => True with
  | case1 prev count =>
    intro e m h
    rw [readFrom] at h
    obtain ⟨rfl, rfl⟩ := Prod.mk.inj (Except.ok.inj h)
    exact .nil
  | case2 prev count =>
    intro e m h
    rw [readFrom] at h
    obtain ⟨rfl, rfl⟩ := Prod.mk.inj (Except.ok.inj h)
    exact (Spans.char '\\').append .nil
  | case3 prev count c g ih =>
    obtain ⟨hbraces, hstars⟩ := onward ['\\', c] g braces stars
    rw [readFrom]
    exact (ih hbraces hstars).behind ['\\', c] (.char c)
  | case4 prev count g ih =>
    obtain ⟨hbraces, hstars⟩ := onward ['?'] g braces stars
    rw [readFrom]
    exact (ih hbraces hstars).behind ['?'] .anyChar
  | case8 prev count g single ih =>
    obtain ⟨hbraces, hstars⟩ := onward ['*'] g braces stars
    have hg : g.head? ≠ some '*' := by
      intro h
      obtain ⟨r, hr⟩ := List.head?_eq_some_iff.mp h
      exact single r hr
    rw [readFrom_segment hg]
    exact (ih hbraces hstars).behind ['*'] .segment
  | case9 prev count t unclosed =>
    intro e m h
    rw [readFrom_unclosed unclosed] at h
    cases h
  | case10 prev count t plain ih =>
    obtain ⟨hbraces, hstars⟩ := onward ['['] t braces stars
    rw [readFrom_plainBracket plain]
    exact (ih hbraces hstars).behind ['['] (.char '[')
  | case11 prev count t set g closed ih =>
    obtain ⟨front, -, -, rfl, none, -⟩ := Bracket.exists_front_of_read closed
    obtain ⟨hbraces, hstars⟩ := onward ('[' :: front) g braces stars
    have no_separator : ('[' :: front).count '/' = 0 := List.count_eq_zero.mpr (by simp [none])
    rw [readFrom_bracket closed]
    exact (ih hbraces hstars).behind ('[' :: front) (no_separator ▸ .oneOf closed)
  | case18 prev count c g lone escape question double star bracket brace ih =>
    obtain ⟨hbraces, hstars⟩ := onward [c] g braces stars
    have plain : c ∉ ['\\', '?', '*', '[', '{'] := by
      have escape : c ≠ '\\' := by
        intro h
        cases g with
        | nil => exact lone h rfl
        | cons d g => exact escape d g h rfl
      simp only [List.mem_cons, List.not_mem_nil, or_false, not_or]
      exact ⟨escape, question, star, bracket, brace⟩
    rw [readFrom_ordinary plain]
    exact (ih hbraces hstars).behind [c] (.char c)
  | case5 | case6 | case7 => exact (stars ⟨[], _, rfl⟩).elim
  | case12 | case13 | case14 | case15 | case16 | case17 => exact (braces List.mem_cons_self).elim
  | case19 | case20 | case21 => trivial

end Reader

/-! ## Globs -/

/-- A path that a glob without braces and double stars matches has the separators of the pattern
text, its leading one apart, and it has no others unless a range of a plain bracket expression leads
across the separator. -/
theorem separators_of_match [Engine] {text : String} {limit : Nat} {g : Glob}
    (compiled : compile text limit = .ok g) (separator : '/' ∈ text.toList)
    (braces : '{' ∉ text.toList) (stars : ¬ ['*', '*'] <:+: text.toList) :
    let written := (body text.toList).count '/'
    (∀ path, g.isMatch path = true → written ≤ path.toList.count '/') ∧
    ((∀ path, g.isMatch path = true → path.toList.count '/' = written) ↔
      (∀ path, g.isMatch path = false) ∨ ∀ set ∈ g.pattern.sets, ¬ set.Crosses) := by
  intro written
  obtain ⟨rfl, n, hread⟩ := compile_ok compiled
  have suffix : body g.text.toList <:+ g.text.toList := by
    unfold body
    split
    · next s hs => exact hs ▸ List.suffix_cons '/' s
    · exact List.suffix_refl _
  have spans : Spans g.pattern.Matches g.pattern.sets written :=
    Reader.readFrom_counted limit none _ 0 (fun h => braces (suffix.mem h))
      (fun h => stars (h.trans suffix.isInfix)) _ n hread
  have whole : isBasenameOnly g.text = false := by
    rw [← Bool.not_eq_true, isBasenameOnly_iff]
    exact not_not_intro separator
  have matches_iff : ∀ path, g.isMatch path = true ↔
      path.toList ≠ [] ∧ g.pattern.Matches path.toList := by
    intro path
    simp [isMatch, candidate, whole, Pattern.accepts_iff]
  refine ⟨fun path h => spans.least _ ((matches_iff path).mp h).2, ?_, ?_⟩
  · intro exact
    by_cases crossing : ∃ set ∈ g.pattern.sets, set.Crosses
    · refine Or.inl fun path => ?_
      rw [← Bool.not_eq_true, matches_iff]
      rintro ⟨-, h⟩
      obtain ⟨v, hv, hmore⟩ := spans.more crossing _ h
      have nonempty : v ≠ [] := by
        rintro rfl
        simp at hmore
      have := exact (String.ofList v) ((matches_iff _).mpr (by simpa using ⟨nonempty, hv⟩))
      rw [String.toList_ofList] at this
      omega
    · exact Or.inr fun set hset crosses => crossing ⟨set, hset, crosses⟩
  · rintro (none | plain) path h
    · rw [none path] at h
      cases h
    · exact spans.exact plain _ ((matches_iff path).mp h).2

theorem separators_of_match_nested : ∃ g, compile "/src/[!a-c]?/*.c" 1 = .ok g ∧
    '/' ∈ "/src/[!a-c]?/*.c".toList ∧ '{' ∉ "/src/[!a-c]?/*.c".toList ∧
    ¬ ['*', '*'] <:+: "/src/[!a-c]?/*.c".toList ∧ g.isMatch "src/x1/main.c" = true ∧
    "src/x1/main.c".toList.count '/' = (body "/src/[!a-c]?/*.c".toList).count '/' := by
  have compiled : compile "/src/[!a-c]?/*.c" 1 = .ok ⟨"/src/[!a-c]?/*.c",
      .atom (.char 's') (.atom (.char 'r') (.atom (.char 'c') (.atom (.char '/')
        (.atom (.oneOf ⟨true, [('/', '/'), ('a', 'c')]⟩) (.atom .anyChar (.atom (.char '/')
          (.atom .segment (.atom (.char '.') (.atom (.char 'c') .nil)))))))))⟩ := by
    decide +kernel
  have separator : '/' ∈ "/src/[!a-c]?/*.c".toList := by decide +kernel
  have braces : '{' ∉ "/src/[!a-c]?/*.c".toList := by decide +kernel
  have stars : ¬ ['*', '*'] <:+: "/src/[!a-c]?/*.c".toList := by decide +kernel
  have exactly_written := (separators_of_match compiled separator braces stars).2.mpr
    (Or.inr (by simp [Pattern.sets, Atom.sets, CharSet.Crosses]))
  exact ⟨_, compiled, separator, braces, stars, by decide +kernel,
    exactly_written "src/x1/main.c" (by decide +kernel)⟩

/-- The range from the dot to the zero leads across the separator. -/
theorem isMatch_across_separator : ∃ g, compile "/a[.-0]b" defaultLimit = .ok g ∧
    '/' ∈ "/a[.-0]b".toList ∧ '{' ∉ "/a[.-0]b".toList ∧ ¬ ['*', '*'] <:+: "/a[.-0]b".toList ∧
    g.isMatch "a/b" = true ∧ "a/b".toList.count '/' ≠ (body "/a[.-0]b".toList).count '/' := by
  have compiled : compile "/a[.-0]b" defaultLimit = .ok ⟨"/a[.-0]b",
      .atom (.char 'a') (.atom (.oneOf ⟨false, [('.', '0')]⟩) (.atom (.char 'b') .nil))⟩ := by
    decide +kernel
  exact ⟨_, compiled, by decide +kernel, by decide +kernel, by decide +kernel, by decide +kernel,
    by decide +kernel⟩

end EditorConfig.Glob
