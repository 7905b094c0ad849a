import EditorConfig.Proofs.Glob.Positions
import EditorConfig.Proofs.Glob.Steps
/-!
# Reading by index

The reader takes a text apart piece by piece. Here the same text is read by index, one turn after
another: a character is only looked at where there is one, a piece is cut out between two indices or
not at all, and the depth to which turns may follow each other is bounded. No piece lies outside of
the text, every turn goes on behind its own index, the texts that are read for their own sake are
shorter, and so the bound is never met: what is read is what the reader reads.
-/
namespace EditorConfig.Glob

/-- The character in front of an index. -/
def before? (chars : List Char) : Nat → Option Char
  | 0 => none
  | i + 1 => chars[i]?

namespace Bracket

/-- Whether the expression that opens at `start` is negated. -/
def isNegated (chars : List Char) (start : Nat) : Bool :=
  chars[start + 1]? == some '!' || chars[start + 1]? == some '^'

/-- Where the body of the expression that opens at `start` begins. -/
def bodyStart (chars : List Char) (start : Nat) : Nat :=
  if isNegated chars start then start + 2 else start + 1

/-- A bracket that may close a body that begins at `start`: it is not the first character, and no
backslash escapes it. -/
structure EndsBody (chars : List Char) (start j : Nat) : Prop where
  behind : start < j
  bracket : chars[j]? = some ']'
  unescaped : Whole ((chars.take j).drop start)

/-- Looks from `j` on for the bracket that closes a body that begins at `start`. -/
def closing? (chars : List Char) (start j : Nat) : Option Nat :=
  if h : j < chars.length then
    match chars[j] with
    | '\\' => closing? chars start (j + 2)
    | c => if c = ']' ∧ start < j then some j else closing? chars start (j + 1)
  else none
termination_by chars.length - j

/-- The characters of a body from `i` on, each with whether it was escaped. -/
def unescapeFrom (body : List Char) (i : Nat) : List (Char × Bool) :=
  if h : i < body.length then
    if escape : body[i] = '\\' ∧ i + 1 < body.length then
      (body[i + 1], true) :: unescapeFrom body (i + 2)
    else (body[i], false) :: unescapeFrom body (i + 1)
  else []
termination_by body.length - i

/-- The members of a body from the `k`-th character on. -/
def membersFrom (flagged : List (Char × Bool)) (k : Nat) : List (Char × Char) :=
  if h : k < flagged.length then
    if range : flagged[k + 1]? = some ('-', false) ∧ k + 2 < flagged.length then
      (flagged[k].1, flagged[k + 2].1) :: membersFrom flagged (k + 3)
    else (flagged[k].1, flagged[k].1) :: membersFrom flagged (k + 1)
  else []
termination_by flagged.length - k

/-- The atom that the expression at `start` stands for and the index behind it, if it is closed. -/
def expression? (chars : List Char) (start : Nat) : Option (Except ReadError (Atom × Nat)) :=
  match closing? chars (bodyStart chars start) (bodyStart chars start) with
  | none => some (.error .unclosedClass)
  | some close =>
    (slice? chars (bodyStart chars start) close).map fun body =>
      if body.contains '/' then .ok (.char '[', start + 1)
      else
        let ranges := membersFrom (unescapeFrom body 0) 0
        let negated := isNegated chars start
        .ok (.oneOf ⟨negated, if negated then ('/', '/') :: ranges else ranges⟩, close + 1)

end Bracket

namespace Reader

/-- What one turn of reading finds. -/
inductive Turn where
  | unclosed
  | atom (a : Atom) (next : Nat)
  | numeral (range : Numerals) (next : Nat)
  | choice (alternatives : List (List Char)) (next : Nat)

/-- The index at which reading goes on. -/
def Turn.next? : Turn → Option Nat
  | unclosed => none
  | atom _ next | numeral _ next | choice _ next => some next

/-- The texts that are read for their own sake. -/
def Turn.alternatives : Turn → List (List Char)
  | choice alternatives _ => alternatives
  | _ => []

/-- The index behind the stars that stand at an index. -/
def starsEnd (chars : List Char) (i : Nat) : Nat :=
  if h : i < chars.length then
    if chars[i] = '*' then starsEnd chars (i + 1) else i
  else i
termination_by chars.length - i

/-- The turn at an opening brace, given the index of the brace that closes it, if there is one. -/
def braces? (chars : List Char) (i : Nat) : Option Nat → Option Turn
  | none => some (.atom (.char '{') (i + 1))
  | some close =>
    (slice? chars (i + 1) close).bind fun inner =>
      match Numerals.parse? inner with
      | some range => some (.numeral range (close + 1))
      | none =>
        (Braces.splitFrom? Braces.lowerToZero inner 0 0 0).map fun parts =>
          if parts.length < 2 then .atom (.char '{') (i + 1) else .choice parts (close + 1)

/-- The turn at an index. -/
def turn? (chars : List Char) (i : Nat) : Option Turn :=
  if h : i < chars.length then
    match chars[i] with
    | '\\' =>
      match chars[i + 1]? with
      | some c => some (.atom (.char c) (i + 2))
      | none => some (.atom (.char '\\') (i + 1))
    | '*' =>
      let stop := starsEnd chars i
      if stop - i = 1 then some (.atom .segment stop)
      else if (i = 0 ∨ chars[i - 1] = '/') ∧ chars[stop]? = some '/' then
        some (.atom .directories (stop + 1))
      else some (.atom .anything stop)
    | '?' => some (.atom .anyChar (i + 1))
    | '[' =>
      (Bracket.expression? chars i).map fun
      | .error _ => .unclosed
      | .ok (a, next) => .atom a next
    | '{' => (Braces.closing? chars 0 i).bind (braces? chars i)
    | c => some (.atom (.char c) (i + 1))
  else none

/-- Reads texts one after another as the alternatives of a choice. -/
def readEach? (read : List Char → Nat → Option (Except ReadError (Pattern × Nat))) :
    List (List Char) → Nat → Option (Except ReadError (Pattern × Nat))
  | [], count => some (.ok (.nil, count))
  | [part], count => read part count
  | part :: parts, count =>
    (read part count).bind fun
    | .error e => some (.error e)
    | .ok (left, count) =>
      (readEach? read parts count).map (Except.map fun (right, n) => (.either left right, n))

/-- Reads a text from an index on, turn after turn; turns follow each other or stand inside of each
other at most `fuel` deep. -/
def readAt? [Engine] (limit : Nat) :
    Nat → List Char → Nat → Nat → Option (Except ReadError (Pattern × Nat))
  | 0, _, _, _ => none
  | fuel + 1, chars, i, count =>
    if i < chars.length then
      (turn? chars i).bind fun
      | .unclosed => some (.error .unclosedClass)
      | .atom a next => (readAt? limit fuel chars next count).map (onto a)
      | .numeral range next =>
        match writeOut limit count range with
        | .error e => some (.error e)
        | .ok count => (readAt? limit fuel chars next count).map (onto (.numeral range.ascending))
      | .choice parts next =>
        (readEach? (fun part count => readAt? limit fuel part 0 count) parts count).bind fun
        | .error e => some (.error e)
        | .ok (body, count) =>
          (readAt? limit fuel chars next count).map (Except.map fun (e, n) => (.group body e, n))
    else some (.ok (.nil, count))

end Reader

variable {chars body rest t : List Char} {c : Char} {start i j next limit count : Nat}

namespace Bracket

/-! ## Bracket expressions -/

theorem unescapeFrom_eq (body : List Char) (i : Nat) :
    unescapeFrom body i = unescape (body.drop i) := by
  fun_induction unescapeFrom body i with
  | case1 i here escape ih =>
    have next : body.drop (i + 1) = body[i + 1] :: body.drop (i + 2) :=
      List.drop_eq_getElem_cons escape.2
    rw [ih, List.drop_eq_getElem_cons here, next, escape.1, unescape]
  | case2 i here plain ih =>
    rw [ih, List.drop_eq_getElem_cons here, unescape]
    intro c s first behind
    obtain ⟨there, -⟩ := Braces.exists_at behind
    exact plain ⟨first, there⟩
  | case3 i beyond =>
    rw [List.drop_eq_nil_of_le (Nat.le_of_not_lt beyond)]
    rfl

theorem membersFrom_eq (flagged : List (Char × Bool)) (k : Nat) :
    membersFrom flagged k = members (flagged.drop k) := by
  fun_induction membersFrom flagged k with
  | case1 k here range ih =>
    obtain ⟨there, dash⟩ := List.getElem?_eq_some_iff.mp range.1
    have next : flagged.drop (k + 1) = flagged[k + 1] :: flagged.drop (k + 2) :=
      List.drop_eq_getElem_cons there
    have last : flagged.drop (k + 2) = flagged[k + 2] :: flagged.drop (k + 3) :=
      List.drop_eq_getElem_cons range.2
    rw [ih, List.drop_eq_getElem_cons here, next, last, dash]
    rfl
  | case2 k here single ih =>
    rw [ih, List.drop_eq_getElem_cons here, members_cons]
    intro high s behind
    have two : flagged[k + 1]? = some ('-', false) ∧ flagged[k + 2]? = some high := by
      rw [← Nat.add_zero (k + 1), ← List.getElem?_drop, behind]
      rw [show k + 2 = k + 1 + 1 from rfl, ← List.getElem?_drop, behind]
      exact ⟨rfl, rfl⟩
    exact single ⟨two.1, (List.getElem?_eq_some_iff.mp two.2).1⟩
  | case3 k beyond =>
    rw [List.drop_eq_nil_of_le (Nat.le_of_not_lt beyond)]
    rfl

theorem not_endsBody (first : chars[j]? = some c) (other : c ≠ ']') : ¬ EndsBody chars start j :=
  fun h => other (Option.some.inj (first.symm.trans h.bracket))

theorem not_endsBody_escaped (upward : start ≤ j) (here : Whole ((chars.take j).drop start))
    (escape : chars[j]? = some '\\') : ¬ EndsBody chars start (j + 1) := by
  intro h
  obtain ⟨inside, first⟩ := List.getElem?_eq_some_iff.mp escape
  have written : chars.drop j = ['\\'] ++ chars.drop (j + 1) := by
    rw [List.drop_eq_getElem_cons inside, first]
    rfl
  have last := h.unescaped
  have slice := Braces.slice_behind _ written upward (Nat.le_of_lt inside)
  rw [List.length_singleton] at slice
  rw [← slice, Braces.whole_append here] at last
  exact last

theorem whole_further (upward : start ≤ j) (here : Whole ((chars.take j).drop start))
    {piece : List Char} (written : chars.drop j = piece ++ rest) (whole : Whole piece)
    (inside : j ≤ chars.length) : Whole ((chars.take (j + piece.length)).drop start) := by
  rw [← Braces.slice_behind _ written upward inside, Braces.whole_append here]
  exact whole

/-- The bracket that is found from `j` on is the first one that may close the body. -/
theorem closing?_spec (upward : start ≤ j) (here : Whole ((chars.take j).drop start)) :
    match closing? chars start j with
    | none => ∀ k, j ≤ k → ¬ EndsBody chars start k
    | some close =>
      EndsBody chars start close ∧ ∀ k, j ≤ k → k < close → ¬ EndsBody chars start k := by
  fun_induction closing? chars start j with
  | case1 j inside escape ih =>
    have first : chars[j]? = some '\\' := List.getElem?_eq_some_iff.mpr ⟨inside, escape⟩
    have two : ∀ k, j ≤ k → k < j + 2 → ¬ EndsBody chars start k := by
      intro k lower upper
      obtain rfl | rfl : k = j ∨ k = j + 1 := by omega
      · exact not_endsBody first (by decide)
      · exact not_endsBody_escaped upward here first
    have further : ∀ k, j ≤ k → k < j + 2 ∨ j + 2 ≤ k := fun k _ => Nat.lt_or_ge k (j + 2)
    by_cases last : j + 1 < chars.length
    · have written : chars.drop j = ['\\', chars[j + 1]] ++ chars.drop (j + 2) := by
        rw [List.drop_eq_getElem_cons inside, List.drop_eq_getElem_cons last, escape]
        rfl
      have onward := ih (Nat.le_add_right_of_le upward)
        (whole_further upward here written trivial (Nat.le_of_lt inside))
      revert onward
      cases closing? chars start (j + 2) with
      | none =>
        exact fun onward k lower => (further k lower).elim (two k lower) (onward k)
      | some close =>
        exact fun onward => ⟨onward.1, fun k lower upper =>
          (further k lower).elim (two k lower) fun beyond => onward.2 k beyond upper⟩
    · have ended : closing? chars start (j + 2) = none := by
        rw [closing?, dif_neg (by omega)]
      rw [ended]
      intro k lower h
      refine (further k lower).elim (fun upper => two k lower upper h) fun beyond => ?_
      have := (List.getElem?_eq_some_iff.mp h.bracket).1
      omega
  | case2 j inside plain bracket =>
    have whole : EndsBody chars start j :=
      ⟨bracket.2, List.getElem?_eq_some_iff.mpr ⟨inside, bracket.1⟩, here⟩
    exact ⟨whole, fun k lower upper => absurd upper (Nat.not_lt_of_le lower)⟩
  | case3 j inside plain other ih =>
    have one : ¬ EndsBody chars start j := fun h =>
      other ⟨(List.getElem?_eq_some_iff.mp h.bracket).2, h.behind⟩
    have written : chars.drop j = [chars[j]] ++ chars.drop (j + 1) :=
      List.drop_eq_getElem_cons inside
    have single : Whole [chars[j]] := (Braces.whole_plain plain).mpr trivial
    have onward := ih (Nat.le_succ_of_le upward)
      (whole_further upward here written single (Nat.le_of_lt inside))
    revert onward
    cases closing? chars start (j + 1) with
    | none =>
      intro onward k lower
      rcases Nat.lt_or_eq_of_le lower with beyond | rfl
      · exact onward k beyond
      · exact one
    | some close =>
      refine fun onward => ⟨onward.1, fun k lower upper => ?_⟩
      rcases Nat.lt_or_eq_of_le lower with beyond | rfl
      · exact onward.2 k beyond upper
      · exact one
  | case4 j beyond =>
    intro k lower h
    have := (List.getElem?_eq_some_iff.mp h.bracket).1
    omega

theorem close?_plain {first : Bool} {s : List Char} (plain : c ≠ '\\')
    (other : ¬ (c = ']' ∧ first = false)) :
    close? first (c :: s) = (close? false s).map fun (body, rest) => (c :: body, rest) := by
  rw [close?, if_neg other]
  all_goals simp_all

/-- The closing bracket is found by index where it is found without. -/
theorem closing?_eq (chars : List Char) (upward : start ≤ j) : closing? chars start j =
    (close? (decide (j = start)) (chars.drop j)).map fun cut => j + cut.1.length := by
  fun_induction closing? chars start j with
  | case1 j inside escape ih =>
    rw [ih (Nat.le_add_right_of_le upward), List.drop_eq_getElem_cons inside, escape,
      decide_eq_false (by omega)]
    by_cases last : j + 1 < chars.length
    · rw [List.drop_eq_getElem_cons last, close?]
      exact Braces.map_behind _ ['\\', chars[j + 1]] j
    · rw [List.drop_eq_nil_of_le (Nat.le_of_not_lt last), List.drop_eq_nil_of_le (by omega)]
      rfl
  | case2 j inside plain bracket =>
    rw [List.drop_eq_getElem_cons inside, bracket.1, decide_eq_false (Nat.ne_of_gt bracket.2),
      close?, if_pos ⟨rfl, rfl⟩]
    · rfl
    all_goals simp
  | case3 j inside plain other ih =>
    have single : ¬ (chars[j] = ']' ∧ decide (j = start) = false) := by
      rintro ⟨bracket, behind⟩
      have := of_decide_eq_false behind
      exact other ⟨bracket, by omega⟩
    rw [ih (Nat.le_succ_of_le upward), List.drop_eq_getElem_cons inside, close?_plain plain single,
      decide_eq_false (by omega)]
    exact Braces.map_behind _ [chars[j]] j
  | case4 j beyond =>
    rw [List.drop_eq_nil_of_le (Nat.le_of_not_lt beyond)]
    rfl

theorem negation_drop (chars : List Char) (start : Nat) : negation (chars.drop (start + 1)) =
    (isNegated chars start, chars.drop (bodyStart chars start)) := by
  have head : chars[start + 1]? = (chars.drop (start + 1)).head? := by
    rw [List.head?_drop]
  rcases negation_cases (chars.drop (start + 1)) with
    ⟨mark, t, marked, written, negated⟩ | ⟨bang, caret, plain⟩
  · have isNeg : isNegated chars start = true := by
      rw [isNegated, head, written]
      rcases marked with rfl | rfl <;> rfl
    have behind : chars.drop (start + 2) = t := by
      rcases marked with rfl | rfl <;> exact (Braces.exists_at written).2.2
    rw [negated, bodyStart, isNeg, if_pos rfl, behind]
  · have isNot : isNegated chars start = false := by
      rw [isNegated, head, beq_eq_false_iff_ne.mpr bang, beq_eq_false_iff_ne.mpr caret]
      rfl
    rw [plain, bodyStart, isNot]
    rfl

theorem whole_at_start (chars : List Char) (start : Nat) :
    Whole ((chars.take start).drop start) := by
  rw [List.drop_eq_nil_of_le (List.length_take_le start chars)]
  trivial

/-- The body that is cut out of the text, and what stands behind it. -/
theorem exists_body (found : closing? chars start start = some j) :
    ∃ body, slice? chars start j = some body ∧ body ≠ [] ∧ Whole body ∧
      EndsBody chars start j ∧ j < chars.length ∧
      close? true (chars.drop start) = some (body, chars.drop (j + 1)) := by
  have ends := closing?_spec (Nat.le_refl start) (whole_at_start chars start)
  rw [found] at ends
  have close := closing?_eq chars (Nat.le_refl start)
  rw [found, decide_eq_true rfl] at close
  obtain ⟨⟨body, rest⟩, cut, rfl⟩ := Option.map_eq_some_iff.mp close.symm
  obtain ⟨-, -, -, written⟩ := closes_of_close? cut
  obtain ⟨piece, inside, -, behind⟩ := slice?_of_cut written
  have same : (chars.take (start + body.length)).drop start = body := by
    rw [Braces.slice?_eq chars (Nat.le_add_right start _) (Nat.le_of_lt inside)] at piece
    exact Option.some.inj piece
  have whole := ends.1.unescaped
  rw [same] at whole
  refine ⟨body, piece, ?_, whole, ends.1, inside, by rw [behind]; exact cut⟩
  rintro rfl
  exact absurd ends.1.behind (Nat.lt_irrefl start)

/-- Reading a bracket expression by index finds what reading the text behind the bracket finds. -/
theorem expression?_eq (chars : List Char) (start : Nat) :
    match read (chars.drop (start + 1)) with
    | .unclosed => expression? chars start = some (.error .unclosedClass)
    | .plain => expression? chars start = some (.ok (.char '[', start + 1))
    | .set set rest => ∃ next, expression? chars start = some (.ok (.oneOf set, next)) ∧
        chars.drop next = rest ∧ next ≤ chars.length ∧ before? chars next = some ']' := by
  rw [read, negation_drop]
  simp only
  cases found : closing? chars (bodyStart chars start) (bodyStart chars start) with
  | none =>
    have none : close? true (chars.drop (bodyStart chars start)) = none := by
      have close := closing?_eq chars (Nat.le_refl (bodyStart chars start))
      rw [found, decide_eq_true rfl] at close
      exact Option.map_eq_none_iff.mp close.symm
    rw [none, expression?, found]
  | some close =>
    obtain ⟨body, piece, -, -, ends, inside, cut⟩ := exists_body found
    rw [cut]
    by_cases separator : body.contains '/' = true
    · simp only [separator, if_true, expression?, found, piece, Option.map_some]
    · simp only [separator, expression?, found, piece, Option.map_some, unescapeFrom_eq,
        membersFrom_eq, List.drop_zero]
      exact ⟨close + 1, rfl, rfl, inside, ends.bracket⟩

/-- A bracket expression is not closed at all, or it is closed by the first bracket that may close
its body; the body is not empty, its last character is no backslash that escapes nothing, and
reading goes on behind the opening bracket. -/
theorem expression?_spec (opening : chars[start]? = some '[') :
    (expression? chars start = some (.error .unclosedClass) ∧
      ∀ j, ¬ EndsBody chars (bodyStart chars start) j) ∨
    ∃ close body a next, IsLeast {j | EndsBody chars (bodyStart chars start) j} close ∧
      slice? chars (bodyStart chars start) close = some body ∧ body ≠ [] ∧ Whole body ∧
      expression? chars start = some (.ok (a, next)) ∧
      next = (if '/' ∈ body then start + 1 else close + 1) ∧
      start < next ∧ next ≤ chars.length := by
  have ends := closing?_spec (Nat.le_refl _) (whole_at_start chars (bodyStart chars start))
  cases found : closing? chars (bodyStart chars start) (bodyStart chars start) with
  | none =>
    rw [found] at ends
    refine .inl ⟨by rw [expression?, found], fun j h => ends j (Nat.le_of_lt h.behind) h⟩
  | some close =>
    rw [found] at ends
    obtain ⟨body, piece, nonempty, whole, closes, inside, -⟩ := exists_body found
    have least : IsLeast {j | EndsBody chars (bodyStart chars start) j} close :=
      ⟨closes, fun j h => Nat.le_of_not_lt fun before => ends.2 j (Nat.le_of_lt h.behind) before h⟩
    have here := (List.getElem?_eq_some_iff.mp opening).1
    have below : start < bodyStart chars start := by
      rw [bodyStart]
      split <;> omega
    have := closes.behind
    obtain ⟨a, reads⟩ : ∃ a, expression? chars start =
        some (.ok (a, if '/' ∈ body then start + 1 else close + 1)) := by
      simp only [expression?, found, piece, Option.map_some, List.contains_iff_mem]
      split
      · exact ⟨_, rfl⟩
      · exact ⟨_, rfl⟩
    refine .inr ⟨close, body, a, _, least, piece, nonempty, whole, reads, rfl, ?_⟩
    split <;> omega

end Bracket

namespace Reader
variable {prev : Option Char} {turn : Turn}

/-! ## Stars -/

theorem starsEnd_eq (h : chars.drop i = '*' :: t) : starsEnd chars i = starsEnd chars (i + 1) := by
  obtain ⟨here, first, -⟩ := Braces.exists_at h
  rw [starsEnd, dif_pos here, if_pos first]

theorem starsEnd_other (h : (chars.drop i).head? ≠ some '*') : starsEnd chars i = i := by
  rw [starsEnd]
  split
  · next here =>
    rw [List.drop_eq_getElem_cons here] at h
    exact if_neg fun first => h (congrArg some first)
  · rfl

/-- Stars end where the text without them begins, behind a star if there was one. -/
theorem starsEnd_spec (chars : List Char) (i : Nat) (inside : i ≤ chars.length) :
    i ≤ starsEnd chars i ∧ starsEnd chars i ≤ chars.length ∧
      chars.drop (starsEnd chars i) = (chars.drop i).dropWhile (· == '*') ∧
      (i < starsEnd chars i → before? chars (starsEnd chars i) = some '*') := by
  fun_induction starsEnd chars i with
  | case1 i here star ih =>
    obtain ⟨behind, within, rest, last⟩ := ih here
    refine ⟨Nat.le_of_succ_le behind, within, ?_, fun _ => ?_⟩
    · rw [rest, List.drop_eq_getElem_cons here, star]
      rfl
    · rcases Nat.lt_or_eq_of_le behind with further | same
      · exact last further
      · rw [← same]
        exact List.getElem?_eq_some_iff.mpr ⟨here, star⟩
  | case2 i here other =>
    refine ⟨Nat.le_refl i, inside, ?_, fun h => absurd h (Nat.lt_irrefl i)⟩
    rw [List.drop_eq_getElem_cons here, List.dropWhile_cons_of_neg (by simpa using other)]
  | case3 i beyond =>
    refine ⟨Nat.le_refl i, inside, ?_, fun h => absurd h (Nat.lt_irrefl i)⟩
    rw [List.drop_eq_nil_of_le (Nat.le_of_not_lt beyond)]
    rfl

/-! ## One turn -/

/-- What a turn at `i` finds is what the text from there on begins with, and the text goes on at the
next index. -/
inductive Turn.Finds (chars : List Char) (prev : Option Char) (i : Nat) : Turn → Prop
  | unclosed {t : List Char} (here : chars.drop i = '[' :: t)
      (unclosed : Bracket.read t = .unclosed) : Finds chars prev i .unclosed
  | atom {a : Atom} {p : Option Char} {next : Nat} (inside : next ≤ chars.length)
      (step : Step prev (chars.drop i) a p (chars.drop next))
      (same : AtSegmentStart p ↔ AtSegmentStart (before? chars next)) :
      Finds chars prev i (.atom a next)
  | numeral {t inner : List Char} {range : Numerals} {next : Nat} (inside : next ≤ chars.length)
      (here : chars.drop i = '{' :: t) (closed : Braces.close? 0 t = some (inner, chars.drop next))
      (parsed : Numerals.parse? inner = some range) (last : before? chars next = some '}') :
      Finds chars prev i (.numeral range next)
  | choice {t inner : List Char} {next : Nat} (inside : next ≤ chars.length)
      (here : chars.drop i = '{' :: t) (closed : Braces.close? 0 t = some (inner, chars.drop next))
      (parsed : Numerals.parse? inner = none) (several : 2 ≤ (Braces.split 0 inner).length)
      (last : before? chars next = some '}') :
      Finds chars prev i (.choice (Braces.split 0 inner) next)

theorem before?_succ (here : chars.drop i = c :: t) : before? chars (i + 1) = some c := by
  obtain ⟨inside, first, -⟩ := Braces.exists_at here
  exact List.getElem?_eq_some_iff.mpr ⟨inside, first⟩

theorem Turn.Finds.char (here : chars.drop i = c :: t)
    (step : Step prev (c :: t) (.char c) (some c) t) :
    (Turn.atom (.char c) (i + 1)).Finds chars prev i := by
  obtain ⟨inside, -, behind⟩ := Braces.exists_at here
  refine .atom inside ?_ (by rw [before?_succ here])
  rw [here, behind]
  exact step

instance (prev : Option Char) : Decidable (AtSegmentStart prev) :=
  inferInstanceAs (Decidable (_ ∨ _))

theorem turn?_stars (here : chars.drop i = '*' :: t) : turn? chars i =
    some (if starsEnd chars i - i = 1 then .atom .segment (starsEnd chars i)
      else if AtSegmentStart (before? chars i) ∧ chars[starsEnd chars i]? = some '/' then
        .atom .directories (starsEnd chars i + 1)
      else .atom .anything (starsEnd chars i)) := by
  obtain ⟨inside, first, -⟩ := Braces.exists_at here
  have start : (i = 0 ∨ chars[i - 1] = '/') ↔ AtSegmentStart (before? chars i) := by
    cases i with
    | zero => simp [before?, AtSegmentStart]
    | succ i =>
      have : before? chars (i + 1) = some chars[i] := List.getElem?_eq_getElem (by omega)
      simp [this, AtSegmentStart]
  rw [turn?, dif_pos inside]
  simp only [first, start]
  split
  · rfl
  · split <;> rfl

theorem finds_stars (here : chars.drop i = '*' :: t)
    (same : AtSegmentStart prev ↔ AtSegmentStart (before? chars i)) :
    ∃ turn, turn? chars i = some turn ∧ turn.Finds chars prev i := by
  obtain ⟨inside, -, behind⟩ := Braces.exists_at here
  obtain ⟨-, upper, rest, last⟩ := starsEnd_spec chars i (Nat.le_of_lt inside)
  refine ⟨_, turn?_stars here, ?_⟩
  by_cases single : t.head? = some '*'
  · obtain ⟨t, rfl⟩ := List.head?_eq_some_iff.mp single
    obtain ⟨further, -, -⟩ := Braces.exists_at behind
    have two : i + 2 ≤ starsEnd chars i := by
      rw [starsEnd_eq here, starsEnd_eq behind]
      exact (starsEnd_spec chars (i + 2) further).1
    have run : t.dropWhile (· == '*') = chars.drop (starsEnd chars i) := by
      rw [rest, here]
      rfl
    have head : chars[starsEnd chars i]? = (chars.drop (starsEnd chars i)).head? := by
      rw [List.head?_drop]
    rw [if_neg (by omega), head]
    split
    · next whole =>
      obtain ⟨g, hg⟩ := List.head?_eq_some_iff.mp whole.2
      obtain ⟨within, -, beyond⟩ := Braces.exists_at hg
      refine .atom within ?_ (by rw [before?_succ hg])
      rw [here, beyond]
      exact .directories (run.trans hg) (same.mpr whole.1)
    · next other =>
      refine .atom upper ?_ (by rw [last (by omega)])
      rw [here]
      exact .anything run fun h => other ⟨same.mp h.1, h.2⟩
  · have one : starsEnd chars i = i + 1 := by
      rw [starsEnd_eq here, starsEnd_other (by rwa [behind])]
    rw [one, if_pos (Nat.add_sub_cancel_left i 1)]
    refine .atom inside ?_ (by rw [before?_succ here])
    rw [here, behind]
    exact .segment single

theorem finds_bracket (here : chars.drop i = '[' :: t) :
    ∃ turn, turn? chars i = some turn ∧ turn.Finds chars prev i := by
  obtain ⟨inside, first, behind⟩ := Braces.exists_at here
  have found : turn? chars i = (Bracket.expression? chars i).map fun
      | .error _ => .unclosed
      | .ok (a, next) => .atom a next := by
    rw [turn?, dif_pos inside]
    simp only [first]
  have reads := Bracket.expression?_eq chars i
  rw [behind] at reads
  cases read : Bracket.read t with
  | unclosed =>
    rw [read] at reads
    rw [found, reads]
    exact ⟨_, rfl, .unclosed here read⟩
  | plain =>
    rw [read] at reads
    rw [found, reads]
    exact ⟨_, rfl, .char here (.plainBracket read)⟩
  | set set rest =>
    rw [read] at reads
    obtain ⟨next, reads, rfl, within, last⟩ := reads
    rw [found, reads]
    refine ⟨_, rfl, .atom within ?_ (by rw [last])⟩
    rw [here]
    exact .bracket read

theorem finds_brace (here : chars.drop i = '{' :: t) :
    ∃ turn, turn? chars i = some turn ∧ turn.Finds chars prev i := by
  obtain ⟨inside, first, behind⟩ := Braces.exists_at here
  have found : turn? chars i = braces? chars i
      ((Braces.close? 0 t).map fun cut => i + 1 + cut.1.length) := by
    have opening : chars[i]? = some '{' := List.getElem?_eq_some_iff.mpr ⟨inside, first⟩
    rw [turn?, dif_pos inside]
    simp only [first, closing?_opening opening, behind, Option.bind_some]
  rw [found]
  cases cut : Braces.close? 0 t with
  | none =>
    have plain : ¬ OpensGroup t := by
      rw [opensGroup_iff]
      rintro ⟨inner, rest, closed, -⟩
      cases cut.symm.trans closed
    exact ⟨_, rfl, .char here (.plainBrace plain)⟩
  | some cutOff =>
    obtain ⟨inner, rest⟩ := cutOff
    have written := (Braces.closing_of_close? cut).1
    rw [← behind] at written
    obtain ⟨piece, within, last, rfl⟩ := slice?_of_cut written
    have parts : Braces.splitFrom? Braces.lowerToZero inner 0 0 0 = some (Braces.split 0 inner) :=
      Braces.splitFrom?_whole inner (fun _ => rfl) (.inl rfl)
    simp only [Option.map_some, braces?, piece, Option.bind_some, parts]
    cases parsed : Numerals.parse? inner with
    | some range => exact ⟨_, rfl, .numeral within here cut parsed last⟩
    | none =>
      by_cases single : (Braces.split 0 inner).length < 2
      · have plain : ¬ OpensGroup t := by
          rw [opensGroup_iff]
          rintro ⟨inner', rest, closed, ⟨range, hr⟩ | several⟩
          · obtain ⟨rfl, -⟩ := Prod.mk.inj (Option.some.inj (cut.symm.trans closed))
            cases parsed.symm.trans hr
          · obtain ⟨rfl, -⟩ := Prod.mk.inj (Option.some.inj (cut.symm.trans closed))
            omega
        exact ⟨_, by simp only [if_pos single], .char here (.plainBrace plain)⟩
      · exact ⟨_, by simp only [if_neg single],
          .choice within here cut parsed (by omega) last⟩

theorem finds_backslash (here : chars.drop i = '\\' :: t) :
    ∃ turn, turn? chars i = some turn ∧ turn.Finds chars prev i := by
  obtain ⟨inside, first, behind⟩ := Braces.exists_at here
  have next : chars[i + 1]? = t.head? := by
    rw [← behind, List.head?_drop]
  have found : turn? chars i = match t.head? with
      | some c => some (.atom (.char c) (i + 2))
      | none => some (.atom (.char '\\') (i + 1)) := by
    rw [turn?, dif_pos inside]
    simp only [first, next]
  cases t with
  | nil => exact ⟨_, found, .char here .lastBackslash⟩
  | cons c t =>
    obtain ⟨within, -, further⟩ := Braces.exists_at behind
    refine ⟨_, found, .atom within ?_ (by rw [before?_succ behind])⟩
    rw [here, further]
    exact .escaped

/-- Every turn succeeds, and finds what stands there. -/
theorem exists_turn (inside : i < chars.length)
    (same : AtSegmentStart prev ↔ AtSegmentStart (before? chars i)) :
    ∃ turn, turn? chars i = some turn ∧ turn.Finds chars prev i := by
  have here : chars.drop i = chars[i] :: chars.drop (i + 1) := List.drop_eq_getElem_cons inside
  by_cases special : chars[i] ∈ ['\\', '?', '*', '[', '{']
  · simp only [List.mem_cons, List.not_mem_nil, or_false] at special
    rcases special with first | first | first | first | first <;> rw [first] at here
    · exact finds_backslash here
    · refine ⟨.atom .anyChar (i + 1), ?_, .atom inside ?_ (by rw [before?_succ here])⟩
      · rw [turn?, dif_pos inside]
        simp only [first]
      · rw [here]
        exact .anyChar
    · exact finds_stars here same
    · exact finds_bracket here
    · exact finds_brace here
  · refine ⟨_, ?_, .char here (.ordinary special)⟩
    simp only [List.mem_cons, List.not_mem_nil, or_false, not_or] at special
    rw [turn?, dif_pos inside]
    split <;> simp_all

theorem lt_of_length_drop (chars : List Char)
    (h : (chars.drop next).length < (chars.drop i).length) : i < next := by
  simp only [List.length_drop] at h
  omega

/-- A turn goes on behind its own index and inside of the text, and what is read for its own sake
is shorter than what is left. -/
theorem Turn.Finds.advances (h : turn.Finds chars prev i) :
    (∀ next ∈ turn.next?, i < next ∧ next ≤ chars.length) ∧
      ∀ part ∈ turn.alternatives, part.length + i < chars.length := by
  cases h with
  | unclosed => exact ⟨nofun, nofun⟩
  | atom inside step =>
    refine ⟨?_, nofun⟩
    rintro next ⟨⟩
    exact ⟨lt_of_length_drop chars step.length_lt, inside⟩
  | numeral inside here closed =>
    refine ⟨?_, nofun⟩
    rintro next ⟨⟩
    have := Braces.length_of_close? closed
    refine ⟨lt_of_length_drop chars ?_, inside⟩
    rw [here, List.length_cons]
    omega
  | @choice t inner _ inside here closed =>
    have shorter := Braces.length_of_close? closed
    have left := congrArg List.length here
    rw [List.length_drop, List.length_cons] at left
    refine ⟨?_, fun part member => ?_⟩
    · rintro next ⟨⟩
      refine ⟨lt_of_length_drop chars ?_, inside⟩
      rw [here, List.length_cons]
      omega
    · have within : part.length < Braces.size (Braces.split 0 inner) := Braces.length_lt_size member
      rw [Braces.size_split] at within
      omega

/-! ## Whole texts -/

variable [Engine]

theorem readEach?_eq {read : List Char → Nat → Option (Except ReadError (Pattern × Nat))}
    {first : List Char} {others : List (List Char)}
    (h : ∀ part ∈ first :: others, ∀ count, read part count = some (readFrom limit none part count))
    (count : Nat) : readEach? read (first :: others) count =
      some (readAll limit first others count) := by
  induction others generalizing first count with
  | nil =>
    rw [readEach?, readAll]
    exact h first List.mem_cons_self count
  | cons second others ih =>
    obtain ⟨hfirst, hothers⟩ := List.forall_mem_cons.mp h
    rw [readEach?, readAll, hfirst count, Option.bind_some]
    · cases readFrom limit none first count with
      | error e => rfl
      | ok found => simp only [ih hothers, Option.map_some]
    · simp

/-- By induction on the bound: a turn goes on behind its own index, and the texts that it reads for
their own sake are shorter than what is left, so that less of the bound is enough for both. -/
theorem readAt?_eq (limit fuel count : Nat)
    (same : AtSegmentStart prev ↔ AtSegmentStart (before? chars i)) (inside : i ≤ chars.length)
    (enough : chars.length - i < fuel) :
    readAt? limit fuel chars i count = some (readFrom limit prev (chars.drop i) count) := by
  induction fuel generalizing chars prev i count with
  | zero => exact absurd enough (Nat.not_lt_zero _)
  | succ fuel ih =>
    rw [readAt?]
    by_cases here : i < chars.length
    · obtain ⟨turn, found, finds⟩ := exists_turn here same
      obtain ⟨onward, shorter⟩ := finds.advances
      rw [if_pos here, found, Option.bind_some]
      cases finds with
      | unclosed text unclosed => rw [text, readFrom_unclosed unclosed]
      | @atom a p next within step next_same =>
        have further := (onward next rfl).1
        rw [readFrom_step step]
        simp only [ih count next_same within (by omega), Option.map_some]
      | @numeral t inner range next within text closed parsed last =>
        have further := (onward next rfl).1
        have same : AtSegmentStart (some '}') ↔ AtSegmentStart (before? chars next) := by rw [last]
        rw [text, readFrom_numeral closed parsed]
        cases counted : writeOut limit count range with
        | error e => simp only [counted]
        | ok n => simp only [counted, ih n same within (by omega), Option.map_some]
      | @choice t inner next within text closed parsed several last =>
        have further := (onward next rfl).1
        have same : AtSegmentStart (some '}') ↔ AtSegmentStart (before? chars next) := by rw [last]
        obtain ⟨first, second, others, parts⟩ := Braces.exists_split several
        have each : readEach? (fun part count => readAt? limit fuel part 0 count)
            (first :: second :: others) count =
              some (readAll limit first (second :: others) count) := by
          refine readEach?_eq (fun part member n => ?_) count
          have := shorter part (parts ▸ member)
          have start : AtSegmentStart none ↔ AtSegmentStart (before? part 0) := Iff.rfl
          exact ih n start (Nat.zero_le _) (by omega)
        rw [text, readFrom_choice closed parsed parts, parts]
        simp only [each, Option.bind_some]
        cases readAll limit first (second :: others) count with
        | error e => rfl
        | ok found =>
          simp only [ih found.2 same within (by omega), Option.map_some]
    · rw [if_neg here, List.drop_eq_nil_of_le (Nat.le_of_not_lt here), readFrom]

end Reader

open Reader

/-- Reading by index never fails: a bracket expression is either not closed, or closed by the first
bracket that may close it, and reading goes on behind it; every turn succeeds, goes on behind its
own index and inside of the text, and reads only shorter texts for their own sake; and turns never
follow each other deeper than there are characters left, so that reading ends, with what the reader
reads. -/
theorem reading_advances [Engine] (limit : Nat) (chars : List Char) :
    (∀ start, chars[start]? = some '[' →
      (Bracket.expression? chars start = some (.error .unclosedClass) ∧
        ∀ j, ¬ Bracket.EndsBody chars (Bracket.bodyStart chars start) j) ∨
      ∃ close body a next,
        IsLeast {j | Bracket.EndsBody chars (Bracket.bodyStart chars start) j} close ∧
        slice? chars (Bracket.bodyStart chars start) close = some body ∧ body ≠ [] ∧ Whole body ∧
        Bracket.expression? chars start = some (.ok (a, next)) ∧
        next = (if '/' ∈ body then start + 1 else close + 1) ∧
        start < next ∧ next ≤ chars.length) ∧
    (∀ i < chars.length, ∃ turn, turn? chars i = some turn ∧
      (∀ next ∈ turn.next?, i < next ∧ next ≤ chars.length) ∧
      ∀ part ∈ turn.alternatives, part.length < chars.length) ∧
    ∀ i ≤ chars.length, ∀ count fuel, chars.length - i < fuel →
      readAt? limit fuel chars i count =
        some (readFrom limit (before? chars i) (chars.drop i) count) := by
  refine ⟨fun start => Bracket.expression?_spec, fun i inside => ?_, fun i inside count fuel => ?_⟩
  · obtain ⟨turn, found, finds⟩ := exists_turn inside Iff.rfl
    obtain ⟨onward, shorter⟩ := finds.advances
    refine ⟨turn, found, onward, fun part member => ?_⟩
    have := shorter part member
    omega
  · exact readAt?_eq limit fuel count Iff.rfl inside

end EditorConfig.Glob
