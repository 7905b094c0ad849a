import EditorConfig.Proofs.Glob.Steps
import Mathlib.Algebra.GroupWithZero.Nat
/-!
# Counting the values of ranges

The values that the ranges of numerals of a text stand for are added up while it is read, in a count
that stops at a greatest number. `Meets` says which ranges a text holds, without a reader and
without a count. Reading is decided by their exact total: it goes beyond a limit below the greatest
count exactly if the total does, and as long as a limit is kept it has no say in what is read. Only
a range whose values cannot be written out gets in the way, if the limit lets reading come to it.
-/
namespace EditorConfig.Glob

/-- Read one after another and from left to right, the texts hold these ranges, up to the first
bracket expression that is not closed. The alternatives of a choice are texts that are read before
what is written behind it; braces that are ordinary characters leave all of their inside to be
read. -/
inductive Meets : List (List Char) → List Numerals → Prop
  | done : Meets [] []
  | next {more : List (List Char)} {ranges : List Numerals} :
      Meets more ranges → Meets ([] :: more) ranges
  | lastBackslash {more : List (List Char)} {ranges : List Numerals} :
      Meets more ranges → Meets (['\\'] :: more) ranges
  | escaped {c : Char} {g : List Char} {more : List (List Char)} {ranges : List Numerals} :
      Meets (g :: more) ranges → Meets (('\\' :: c :: g) :: more) ranges
  | ordinary {c : Char} {g : List Char} {more : List (List Char)} {ranges : List Numerals}
      (plain : c ∉ ['\\', '[', '{']) : Meets (g :: more) ranges → Meets ((c :: g) :: more) ranges
  | unclosed {t : List Char} {more : List (List Char)}
      (never : ∀ negated body rest, ¬ Bracketed t negated body rest) : Meets (('[' :: t) :: more) []
  | bracket {negated : Bool} {body : List Piece} {t g : List Char} {more : List (List Char)}
      {ranges : List Numerals} (closed : Bracketed t negated body g)
      (inside : ∀ p ∈ body, p.char ≠ '/') :
      Meets (g :: more) ranges → Meets (('[' :: t) :: more) ranges
  | plainBracket {negated : Bool} {body : List Piece} {t g : List Char} {more : List (List Char)}
      {ranges : List Numerals} (closed : Bracketed t negated body g)
      (separator : ∃ p ∈ body, p.char = '/') :
      Meets (t :: more) ranges → Meets (('[' :: t) :: more) ranges
  | numeral {low high : Int} {width : Option Nat} {inner t g : List Char}
      {more : List (List Char)} {ranges : List Numerals} (braces : t = inner ++ '}' :: g)
      (range : NumeralRange inner low high width) :
      Meets (g :: more) ranges → Meets (('{' :: t) :: more) (⟨low, high, width⟩ :: ranges)
  | choice {branches : List (List Char)} {inner t g : List Char} {more : List (List Char)}
      {ranges : List Numerals} (braces : t = inner ++ '}' :: g)
      (choices : Choices inner branches) :
      Meets (branches ++ g :: more) ranges → Meets (('{' :: t) :: more) ranges
  | plainBrace {t : List Char} {more : List (List Char)} {ranges : List Numerals}
      (plain : ¬ OpensGroup t) : Meets (t :: more) ranges → Meets (('{' :: t) :: more) ranges

/-- How many values the ranges stand for. -/
def total (ranges : List Numerals) : Nat := (ranges.map Numerals.count).sum

/-- A range is met within the limit and its values cannot be written out. -/
def Overfull [Engine] (limit : Nat) (ranges : List Numerals) : Prop :=
  ∃ front range behind, ranges = front ++ range :: behind ∧ total (front ++ [range]) ≤ limit ∧
    Engine.lists range.ascending = false

variable {limit count : Nat} {prev p : Option Char} {c : Char} {g t inner rest : List Char}
  {texts texts' more branches : List (List Char)} {range : Numerals}
  {ranges ranges' all : List Numerals} {ends : Bool}

/-! ## The ranges of a text -/

theorem meets_nil : Meets ([] :: more) all ↔ Meets more all := by
  constructor
  · intro h
    cases h with
    | next h => exact h
  · exact .next

theorem meets_lastBackslash : Meets (['\\'] :: more) all ↔ Meets more all := by
  constructor
  · intro h
    cases h with
    | lastBackslash h => exact h
    | ordinary plain _ => simp at plain
  · exact .lastBackslash

theorem meets_escaped : Meets (('\\' :: c :: g) :: more) all ↔ Meets (g :: more) all := by
  constructor
  · intro h
    cases h with
    | escaped h => exact h
    | ordinary plain _ => simp at plain
  · exact .escaped

theorem meets_ordinary (plain : c ∉ ['\\', '[', '{']) :
    Meets ((c :: g) :: more) all ↔ Meets (g :: more) all := by
  constructor
  · intro h
    cases h with
    | ordinary _ h => exact h
    | _ => simp at plain
  · exact .ordinary plain

theorem meets_dropStars (t : List Char) :
    Meets (t :: more) all ↔ Meets (t.dropWhile (· == '*') :: more) all := by
  induction t with
  | nil => exact Iff.rfl
  | cons c t ih =>
    by_cases star : c = '*'
    · rw [meets_ordinary (by simp [star]), ih, List.dropWhile_cons_of_pos (by simp [star])]
    · rw [List.dropWhile_cons_of_neg (by simp [star])]

theorem meets_stars : Meets (('*' :: '*' :: t) :: more) all ↔
    Meets (t.dropWhile (· == '*') :: more) all := by
  rw [meets_ordinary (by decide), meets_ordinary (by decide), meets_dropStars]

theorem meets_bracket {set : CharSet} (h : Bracket.read t = .set set rest) :
    Meets (('[' :: t) :: more) all ↔ Meets (rest :: more) all := by
  obtain ⟨negated, body, closed, inside, -⟩ := Bracket.read_eq_set_iff.mp h
  constructor
  · intro hs
    cases hs with
    | ordinary plain _ => simp at plain
    | unclosed never => exact (never _ _ _ closed).elim
    | bracket closed inside hs =>
      have found := h.symm.trans (Bracket.read_eq_set_iff.mpr ⟨_, _, closed, inside, rfl⟩)
      obtain ⟨-, rfl⟩ := Bracket.Reading.set.inj found
      exact hs
    | plainBracket closed separator _ =>
      cases h.symm.trans (Bracket.read_eq_plain_iff.mpr ⟨_, _, _, closed, separator⟩)
  · exact .bracket closed inside

theorem meets_plainBracket (h : Bracket.read t = .plain) :
    Meets (('[' :: t) :: more) all ↔ Meets (t :: more) all := by
  obtain ⟨negated, body, g, closed, separator⟩ := Bracket.read_eq_plain_iff.mp h
  constructor
  · intro hs
    cases hs with
    | ordinary plain _ => simp at plain
    | unclosed never => exact (never _ _ _ closed).elim
    | bracket closed inside _ =>
      cases h.symm.trans (Bracket.read_eq_set_iff.mpr ⟨_, _, closed, inside, rfl⟩)
    | plainBracket _ _ hs => exact hs
  · exact .plainBracket closed separator

theorem meets_unclosed (h : Bracket.read t = .unclosed) :
    Meets (('[' :: t) :: more) all ↔ all = [] := by
  have never := Bracket.read_eq_unclosed_iff.mp h
  constructor
  · intro hs
    cases hs with
    | ordinary plain _ => simp at plain
    | unclosed _ => rfl
    | bracket closed _ _ => exact (never _ _ _ closed).elim
    | plainBracket closed _ _ => exact (never _ _ _ closed).elim
  · rintro rfl
    exact .unclosed never

theorem meets_plainBrace (plain : ¬ OpensGroup t) :
    Meets (('{' :: t) :: more) all ↔ Meets (t :: more) all := by
  constructor
  · intro h
    cases h with
    | ordinary plain _ => simp at plain
    | numeral braces range _ => exact (plain ⟨_, _, braces, .inl ⟨_, _, _, range⟩⟩).elim
    | choice braces choices _ => exact (plain ⟨_, _, braces, .inr ⟨_, choices⟩⟩).elim
    | plainBrace _ h => exact h
  · exact .plainBrace plain

theorem meets_numeral (hclose : Braces.close? 0 t = some (inner, rest))
    (hrange : Numerals.parse? inner = some range) : Meets (('{' :: t) :: more) all ↔
      ∃ others, all = range :: others ∧ Meets (rest :: more) others := by
  constructor
  · intro h
    cases h with
    | ordinary plain _ => simp at plain
    | numeral braces hr h =>
      obtain ⟨parsed, rfl⟩ := range_of_close? hclose braces hr
      obtain rfl := Option.some.inj (hrange.symm.trans parsed)
      exact ⟨_, rfl, h⟩
    | choice braces choices _ =>
      cases hrange.symm.trans (choices_of_close? hclose braces choices).1
    | plainBrace plain _ =>
      exact (plain (opensGroup_iff.mpr ⟨_, _, hclose, .inl ⟨_, hrange⟩⟩)).elim
  · rintro ⟨others, rfl, h⟩
    exact .numeral (Braces.close?_eq_some_iff.mp hclose).1 (Numerals.parse?_eq_some_iff.mp hrange) h

theorem meets_choice (hclose : Braces.close? 0 t = some (inner, rest))
    (hrange : Numerals.parse? inner = none) (several : 2 ≤ (Braces.split 0 inner).length) :
    Meets (('{' :: t) :: more) all ↔ Meets (Braces.split 0 inner ++ rest :: more) all := by
  obtain ⟨written, balanced⟩ := Braces.close?_eq_some_iff.mp hclose
  constructor
  · intro h
    cases h with
    | ordinary plain _ => simp at plain
    | numeral braces hr _ => cases hrange.symm.trans (range_of_close? hclose braces hr).1
    | choice braces choices h =>
      obtain ⟨-, rfl, rfl⟩ := choices_of_close? hclose braces choices
      exact h
    | plainBrace plain _ => exact (plain (opensGroup_iff.mpr ⟨_, _, hclose, .inr several⟩)).elim
  · exact .choice written ((Braces.choices_iff_split balanced).mpr ⟨rfl, several⟩)

/-- An atom holds no range. -/
theorem meets_step {a : Atom} (h : Step prev g a p rest) :
    Meets (g :: more) all ↔ Meets (rest :: more) all := by
  cases h with
  | lastBackslash => exact meets_lastBackslash.trans meets_nil.symm
  | escaped => exact meets_escaped
  | ordinary plain =>
    simp only [List.mem_cons, List.not_mem_nil, or_false, not_or] at plain
    exact meets_ordinary (by simp [plain])
  | anyChar => exact meets_ordinary (by decide)
  | segment _ => exact meets_ordinary (by decide)
  | directories run _ => rw [meets_stars, run, meets_ordinary (by decide)]
  | anything run _ => rw [meets_stars, run]
  | bracket closed => exact meets_bracket closed
  | plainBracket plain => exact meets_plainBracket plain
  | plainBrace plain => exact meets_plainBrace plain

/-- In front of any others the texts hold `ranges`; the others are reached if the texts come to
their ends. -/
def Holds (texts : List (List Char)) (ranges : List Numerals) (ends : Bool) : Prop :=
  ∀ more all, Meets (texts ++ more) all ↔
    if ends then ∃ others, all = ranges ++ others ∧ Meets more others else all = ranges

namespace Holds

theorem congr (h : Holds texts ranges ends)
    (same : ∀ more all, Meets (texts' ++ more) all ↔ Meets (texts ++ more) all) :
    Holds texts' ranges ends :=
  fun more all => (same more all).trans (h more all)

theorem behind {front : List Numerals} (h : Holds texts ranges ends)
    (same : ∀ more all, Meets (texts' ++ more) all ↔
      ∃ others, all = front ++ others ∧ Meets (texts ++ more) others) :
    Holds texts' (front ++ ranges) ends := by
  intro more all
  rw [same]
  simp only [h more]
  cases ends with
  | true => simp
  | false => simp

theorem append (h : Holds texts ranges true) (h' : Holds texts' ranges' ends) :
    Holds (texts ++ texts') (ranges ++ ranges') ends := by
  intro more all
  have first := h (texts' ++ more) all
  rw [if_pos rfl] at first
  rw [List.append_assoc, first]
  simp only [h' more]
  cases ends with
  | true => simp
  | false => simp

theorem stop (h : Holds texts ranges false) (texts' : List (List Char)) :
    Holds (texts ++ texts') ranges false := by
  intro more all
  rw [List.append_assoc]
  exact h (texts' ++ more) all

theorem meets_iff (h : Holds texts ranges ends) : Meets texts all ↔ all = ranges := by
  have done : ∀ others, Meets [] others ↔ others = [] := by
    intro others
    constructor
    · intro h
      cases h
      rfl
    · rintro rfl
      exact .done
  have alone := h [] all
  rw [List.append_nil] at alone
  rw [alone]
  cases ends with
  | true => simp [done]
  | false => simp

end Holds

/-! ## The count -/

theorem total_append : total (ranges ++ ranges') = total ranges + total ranges' := by
  simp [total]

namespace Reader

/-- The count behind some ranges: exact up to the greatest one. -/
def tally (count : Nat) (ranges : List Numerals) : Nat := min maxCount (count + total ranges)

theorem tally_append : tally count (ranges ++ ranges') = tally (tally count ranges) ranges' := by
  simp only [tally, total_append]
  omega

theorem tally_le_append : tally count ranges ≤ tally count (ranges ++ ranges') := by
  simp only [tally, total_append]
  omega

/-- The steps in which the values of one range are added lose nothing below the greatest count. -/
theorem addCount_eq (count : Nat) (range : Numerals) :
    addCount count range = tally count [range] := by
  simp only [addCount, tally, total, Numerals.count, List.map_cons, List.map_nil, List.sum_cons,
    List.sum_nil]
  omega

-- All 64-bit integers are one more than can be counted.
example : total [⟨-2 ^ 63, 2 ^ 63 - 1, none⟩] = maxCount + 1 ∧
    tally 0 [⟨-2 ^ 63, 2 ^ 63 - 1, none⟩] = maxCount := by
  decide

variable [Engine]

/-- Counts the values of ranges and writes them out, one range after another. -/
def writeOutAll (limit count : Nat) (ranges : List Numerals) : Except ReadError Nat :=
  ranges.foldlM (writeOut limit) count

theorem writeOutAll_cons : writeOutAll limit count (range :: ranges) =
    (writeOut limit count range).bind fun n => writeOutAll limit n ranges := List.foldlM_cons ..

/-- Like `Overfull`, from a count. -/
def OverfullFrom (limit count : Nat) (ranges : List Numerals) : Prop :=
  ∃ front range behind, ranges = front ++ range :: behind ∧
    tally count (front ++ [range]) ≤ limit ∧ Engine.lists range.ascending = false

theorem overfullFrom_cons : OverfullFrom limit count (range :: ranges) ↔
    tally count [range] ≤ limit ∧
      (Engine.lists range.ascending = false ∨ OverfullFrom limit (tally count [range]) ranges) := by
  constructor
  · rintro ⟨_ | ⟨first, front⟩, r, behind, written, within, full⟩
    · obtain ⟨rfl, -⟩ := List.cons.inj written
      exact ⟨within, .inl full⟩
    · obtain ⟨rfl, rfl⟩ := List.cons.inj written
      rw [List.cons_append, ← List.singleton_append] at within
      exact ⟨tally_le_append.trans within,
        .inr ⟨front, r, behind, rfl, tally_append ▸ within, full⟩⟩
  · rintro ⟨within, full | ⟨front, r, behind, rfl, further, full⟩⟩
    · exact ⟨[], range, ranges, rfl, within, full⟩
    · refine ⟨range :: front, r, behind, rfl, ?_, full⟩
      rw [List.cons_append, ← List.singleton_append, tally_append]
      exact further

theorem overfullFrom_zero (below : limit < maxCount) :
    OverfullFrom limit 0 ranges ↔ Overfull limit ranges := by
  have exact (ranges : List Numerals) : tally 0 ranges ≤ limit ↔ total ranges ≤ limit := by
    rw [tally, Nat.zero_add]
    omega
  simp only [OverfullFrom, Overfull, exact]

/-- By induction on the ranges: which of three things happens is decided by the first range that
goes beyond the limit or cannot be written out. -/
theorem writeOutAll_cases (ranges : List Numerals) (within : count ≤ limit)
    (exact : count ≤ maxCount) :
    (OverfullFrom limit count ranges ∧ writeOutAll limit count ranges = .error .noRoom) ∨
    (¬ OverfullFrom limit count ranges ∧ limit < tally count ranges ∧
      writeOutAll limit count ranges = .error .tooManyAlternatives) ∨
    (¬ OverfullFrom limit count ranges ∧ tally count ranges ≤ limit ∧
      writeOutAll limit count ranges = .ok (tally count ranges)) := by
  induction ranges generalizing count with
  | nil =>
    have empty : tally count [] = count := Nat.min_eq_right exact
    refine .inr (.inr ⟨?_, by rwa [empty], by rw [empty]; rfl⟩)
    rintro ⟨front, range, behind, written, -⟩
    cases front <;> cases written
  | cons range ranges ih =>
    have both : tally count (range :: ranges) = tally (tally count [range]) ranges := by
      rw [← List.singleton_append, tally_append]
    rw [overfullFrom_cons, writeOutAll_cons, writeOut, addCount_eq, both]
    by_cases beyond : limit < tally count [range]
    · have more : tally count [range] ≤ tally (tally count [range]) ranges := by
        rw [← tally_append]
        exact tally_le_append
      rw [if_pos beyond]
      exact .inr (.inl ⟨fun h => Nat.not_lt.mpr h.1 beyond, beyond.trans_le more, rfl⟩)
    · have kept := Nat.not_lt.mp beyond
      rw [if_neg beyond]
      cases full : Engine.lists range.ascending with
      | false => exact .inl ⟨⟨kept, .inl rfl⟩, rfl⟩
      | true => simpa [kept, Except.bind] using ih kept (Nat.min_le_left _ _)

theorem writeOutAll_eq_noRoom_iff (below : limit < maxCount) :
    writeOutAll limit 0 ranges = .error .noRoom ↔ Overfull limit ranges := by
  rw [← overfullFrom_zero below]
  rcases writeOutAll_cases ranges (Nat.zero_le limit) (Nat.zero_le _) with
    ⟨full, found⟩ | ⟨free, -, found⟩ | ⟨free, -, found⟩ <;> simp [*]

theorem writeOutAll_eq_tooMany_iff (below : limit < maxCount) :
    writeOutAll limit 0 ranges = .error .tooManyAlternatives ↔
      limit < total ranges ∧ ¬ Overfull limit ranges := by
  have exact : limit < tally 0 ranges ↔ limit < total ranges := by
    rw [tally, Nat.zero_add]
    omega
  rw [← overfullFrom_zero below, ← exact]
  rcases writeOutAll_cases ranges (Nat.zero_le limit) (Nat.zero_le _) with
    ⟨full, found⟩ | ⟨free, more, found⟩ | ⟨free, within, found⟩
  · simp [found, full]
  · simp [found, free, more]
  · simp [found, Nat.not_lt.mpr within]

theorem writeOut_mono {limit' n : Nat} (le : limit ≤ limit')
    (h : writeOut limit count range = .ok n) : writeOut limit' count range = .ok n := by
  unfold writeOut at h ⊢
  split at h
  · cases h
  · next kept =>
    rw [if_neg fun beyond => kept (le.trans_lt beyond)]
    exact h

/-- What a limit admits, a greater one admits as well. -/
theorem writeOutAll_mono {limit' n : Nat} (le : limit ≤ limit')
    (h : writeOutAll limit count ranges = .ok n) : writeOutAll limit' count ranges = .ok n := by
  induction ranges generalizing count with
  | nil => exact h
  | cons range ranges ih =>
    rw [writeOutAll_cons] at h ⊢
    cases first : writeOut limit count range with
    | error e =>
      rw [first] at h
      cases h
    | ok m =>
      rw [first] at h
      rw [writeOut_mono le first]
      exact ih h

/-- The answer for a text that holds `ranges` and is read as `outcome`; without one, a bracket
expression is not closed. -/
def settled (limit count : Nat) (ranges : List Numerals) (outcome : Option Pattern) :
    Except ReadError (Pattern × Nat) :=
  (writeOutAll limit count ranges).bind fun n =>
    match outcome with
    | some e => .ok (e, n)
    | none => .error .unclosedClass

variable {outcome outcome' : Option Pattern} {e : Pattern}

theorem settled_eq_error_iff {err : ReadError} (other : err ≠ .unclosedClass) :
    settled limit count ranges outcome = .error err ↔
      writeOutAll limit count ranges = .error err := by
  unfold settled
  cases writeOutAll limit count ranges with
  | error e => simp [Except.bind]
  | ok n => cases outcome <;> simp [Except.bind, other.symm]

theorem settled_eq_ok_iff {n : Nat} : settled limit count ranges outcome = .ok (e, n) ↔
    writeOutAll limit count ranges = .ok n ∧ outcome = some e := by
  unfold settled
  cases writeOutAll limit count ranges with
  | error err => simp [Except.bind]
  | ok m => cases outcome <;> simp [Except.bind, and_comm]

theorem map_settled (f : Pattern → Pattern) :
    ((settled limit count ranges outcome).map fun (e, n) => (f e, n)) =
      settled limit count ranges (outcome.map f) := by
  unfold settled
  cases writeOutAll limit count ranges with
  | error err => rfl
  | ok n => cases outcome <;> rfl

theorem settled_append : settled limit count (ranges ++ ranges') outcome =
    (writeOutAll limit count ranges).bind fun n => settled limit n ranges' outcome := by
  have all : writeOutAll limit count (ranges ++ ranges') =
      (writeOutAll limit count ranges).bind fun n => writeOutAll limit n ranges' :=
    List.foldlM_append ..
  rw [settled, all]
  cases writeOutAll limit count ranges <;> rfl

/-! ## Reading -/

/-- Reads on behind what was read, and puts both together. -/
def andThen (found : Except ReadError (Pattern × Nat))
    (next : Nat → Except ReadError (Pattern × Nat)) (f : Pattern → Pattern → Pattern) :
    Except ReadError (Pattern × Nat) :=
  match found with
  | .error err => .error err
  | .ok (e, n) => (next n).map fun (e', n) => (f e e', n)

theorem readAll_cons (first second : List Char) (others : List (List Char)) :
    readAll limit first (second :: others) count =
      andThen (readFrom limit none first count) (readAll limit second others) .either := by
  rw [readAll]
  rfl

theorem readFrom_group (hclose : Braces.close? 0 t = some (inner, rest))
    (hrange : Numerals.parse? inner = none) {first second : List Char} {others : List (List Char)}
    (hsplit : Braces.split 0 inner = first :: second :: others) :
    readFrom limit prev ('{' :: t) count =
      andThen (readAll limit first (second :: others) count) (readFrom limit (some '}') rest)
        .group := by
  rw [readFrom_choice hclose hrange hsplit]
  rfl

/-- The texts hold `ranges`, and they and `outcome` settle what is read of the texts under a limit
and from a count. -/
structure Accounted (texts : List (List Char))
    (read : Nat → Nat → Except ReadError (Pattern × Nat)) (ranges : List Numerals)
    (outcome : Option Pattern) : Prop where
  holds : Holds texts ranges outcome.isSome
  settles : ∀ limit count, read limit count = settled limit count ranges outcome

/-- An atom in front changes nothing but what is read. -/
theorem Accounted.onto {read : Nat → Nat → Except ReadError (Pattern × Nat)} {a : Atom}
    (h : Accounted [rest] read ranges outcome) (step : Step prev g a p rest) :
    Accounted [g] (fun limit count => onto a (read limit count)) ranges
      (outcome.map (.atom a)) := by
  refine ⟨?_, fun limit count => ?_⟩
  · rw [Option.isSome_map]
    exact h.holds.congr fun _ _ => meets_step step
  · rw [h.settles, ← map_settled]
    rfl

/-- Ranges that are read one after another add up. -/
theorem Accounted.andThen {read read' : Nat → Nat → Except ReadError (Pattern × Nat)}
    (h : Accounted texts read ranges outcome) (h' : Accounted texts' read' ranges' outcome')
    (f : Pattern → Pattern → Pattern) : ∃ all result, Accounted (texts ++ texts')
      (fun limit count => andThen (read limit count) (read' limit) f) all result := by
  cases outcome with
  | none =>
    refine ⟨ranges, none, h.holds.stop texts', fun limit count => ?_⟩
    rw [h.settles]
    cases found : settled limit count ranges none with
    | error err => rfl
    | ok result => cases (settled_eq_ok_iff.mp found).2
  | some e =>
    refine ⟨ranges ++ ranges', outcome'.map (f e), ?_, fun limit count => ?_⟩
    · rw [Option.isSome_map]
      exact h.holds.append h'.holds
    · rw [h.settles, settled_append, settled]
      cases writeOutAll limit count ranges with
      | error err => rfl
      | ok n =>
        change (read' limit n).map _ = settled limit n ranges' _
        rw [h'.settles, ← map_settled]

/-- Alternatives are accounted for if each of them is. -/
theorem exists_accounted_readAll {first : List Char} {others : List (List Char)}
    (h : ∀ b ∈ first :: others, ∃ ranges outcome,
      Accounted [b] (fun limit => readFrom limit none b) ranges outcome) :
    ∃ ranges outcome, Accounted (first :: others) (fun limit => readAll limit first others)
      ranges outcome := by
  induction others generalizing first with
  | nil =>
    obtain ⟨ranges, outcome, accounted⟩ := h first List.mem_cons_self
    refine ⟨ranges, outcome, accounted.holds, fun limit count => ?_⟩
    rw [readAll]
    exact accounted.settles limit count
  | cons second others ih =>
    obtain ⟨_, _, accounted⟩ := h first List.mem_cons_self
    obtain ⟨_, _, behind⟩ := ih fun b member => h b (List.mem_cons_of_mem first member)
    obtain ⟨all, result, both⟩ := accounted.andThen behind .either
    refine ⟨all, result, both.holds, fun limit count => ?_⟩
    rw [readAll_cons]
    exact both.settles limit count

/-- Every text is accounted for. -/
theorem exists_accounted (prev : Option Char) (g : List Char) :
    ∃ ranges outcome, Accounted [g] (fun limit => readFrom limit prev g) ranges outcome := by
  induction prev, g using text_induction with
  | nil prev =>
    refine ⟨[], some .nil, fun more all => meets_nil.trans (by simp), fun limit count => ?_⟩
    rw [readFrom]
    rfl
  | step step ih =>
    obtain ⟨ranges, outcome, accounted⟩ := ih
    refine ⟨ranges, _, (accounted.onto step).holds, fun limit count => ?_⟩
    rw [readFrom_step step]
    exact (accounted.onto step).settles limit count
  | unclosed prev unclosed =>
    refine ⟨[], none, fun more all => meets_unclosed unclosed, fun limit count => ?_⟩
    rw [readFrom_unclosed unclosed]
    rfl
  | @numeral prev t inner rest range closed parsed ih =>
    obtain ⟨ranges, outcome, accounted⟩ := ih
    refine ⟨[range] ++ ranges, outcome.map (.atom (.numeral range.ascending)), ?_,
      fun limit count => ?_⟩
    · rw [Option.isSome_map]
      exact accounted.holds.behind fun more all => meets_numeral closed parsed
    · have single : writeOutAll limit count [range] = writeOut limit count range := by
        rw [writeOutAll, List.foldlM_cons]
        cases writeOut limit count range <;> rfl
      rw [readFrom_numeral closed parsed, settled_append, single]
      cases writeOut limit count range with
      | error err => rfl
      | ok n =>
        change onto _ (readFrom limit (some '}') rest n) = settled limit n ranges _
        rw [accounted.settles, ← map_settled]
        rfl
  | @choice prev t inner rest closed parsed several ihb ih =>
    obtain ⟨_, _, accounted⟩ := ih
    obtain ⟨first, second, others, hsplit⟩ := Braces.exists_split several
    rw [hsplit] at ihb
    obtain ⟨_, _, alternatives⟩ := exists_accounted_readAll ihb
    obtain ⟨all, result, both⟩ := alternatives.andThen accounted .group
    refine ⟨all, result, both.holds.congr fun more all => ?_, fun limit count => ?_⟩
    · rw [List.append_assoc, ← hsplit]
      exact meets_choice closed parsed several
    · rw [readFrom_group closed parsed hsplit]
      exact both.settles limit count

end Reader

/-! ## Globs -/

section
variable [Engine] {text : String}

theorem compile_tooMany_iff :
    compile text limit = .error (.tooManyAlternatives text limit) ↔
      Reader.readFrom limit none (body text.toList) 0 = .error .tooManyAlternatives := by
  rw [compile, Reader.read]
  cases Reader.readFrom limit none (body text.toList) 0 with
  | error err => cases err <;> simp [Except.map]
  | ok found =>
    simp only [Except.map]
    split <;> simp

theorem compile_noRoom_iff : compile text limit = .error (.noRoom text) ↔
    Reader.readFrom limit none (body text.toList) 0 = .error .noRoom := by
  rw [compile, Reader.read]
  cases Reader.readFrom limit none (body text.toList) 0 with
  | error err => cases err <;> simp [Except.map]
  | ok found =>
    simp only [Except.map]
    split <;> simp

/-- Only a range that cannot be written out ends the program, and the text is named. -/
theorem isFatal_of_compile {error : CompileError} (h : compile text limit = .error error) :
    error.isFatal = true ↔ compile text limit = .error (.noRoom text) := by
  rw [h]
  constructor
  · intro fatal
    unfold compile at h
    split at h
    · cases h
      cases fatal
    · cases h
      cases fatal
    · rw [Except.error.inj h]
    · split at h <;> cases h
      cases fatal
  · intro same
    rw [Except.error.inj same]
    rfl

/-- What ends the program is a range within the limit. -/
theorem exists_range_of_noRoom (below : limit < 2 ^ 64 - 1)
    (h : compile text limit = .error (.noRoom text)) :
    ∃ range : Numerals, range.count ≤ limit ∧ Engine.lists range = false := by
  obtain ⟨ranges, outcome, accounted⟩ := Reader.exists_accounted none (body text.toList)
  have settled : Reader.readFrom limit none (body text.toList) 0 =
      Reader.settled limit 0 ranges outcome := accounted.settles limit 0
  rw [compile_noRoom_iff, settled, Reader.settled_eq_error_iff (by decide),
    Reader.writeOutAll_eq_noRoom_iff below] at h
  obtain ⟨front, range, behind, -, within, full⟩ := h
  refine ⟨range.ascending, ?_, full⟩
  rw [total_append] at within
  rw [Numerals.count_ascending]
  simp only [total, List.map_cons, List.map_nil, List.sum_cons, List.sum_nil] at within
  omega

/-- A pattern text holds certain ranges. Under a limit below the greatest count, compiling it ends
with a range that is met within the limit and cannot be written out, or else goes beyond the limit
exactly if the ranges stand for more values. What compiles compiles under a greater limit to the
same glob. -/
theorem ranges_accounted (text : String) :
    (∃ ranges, (∀ all, Meets [body text.toList] all ↔ all = ranges) ∧ ∀ limit < 2 ^ 64 - 1,
      (compile text limit = .error (.tooManyAlternatives text limit) ↔
        limit < total ranges ∧ ¬ Overfull limit ranges) ∧
      (compile text limit = .error (.noRoom text) ↔ Overfull limit ranges)) ∧
    ∀ limit limit' g, limit ≤ limit' → compile text limit = .ok g →
      ∃ g', compile text limit' = .ok g' ∧ ∀ path, g'.isMatch path = g.isMatch path := by
  obtain ⟨ranges, outcome, accounted⟩ := Reader.exists_accounted none (body text.toList)
  have start (limit : Nat) : Reader.readFrom limit none (body text.toList) 0 =
      Reader.settled limit 0 ranges outcome := accounted.settles limit 0
  refine ⟨⟨ranges, fun _ => accounted.holds.meets_iff, fun limit below => ⟨?_, ?_⟩⟩,
    fun limit limit' g le compiled => ?_⟩
  · rw [compile_tooMany_iff, start, Reader.settled_eq_error_iff (by decide),
      Reader.writeOutAll_eq_tooMany_iff below]
  · rw [compile_noRoom_iff, start, Reader.settled_eq_error_iff (by decide),
      Reader.writeOutAll_eq_noRoom_iff below]
  · obtain ⟨htext, ⟨n, hread⟩, bounded⟩ := compile_eq_ok_iff.mp compiled
    rw [start, Reader.settled_eq_ok_iff] at hread
    have read : Reader.readFrom limit' none (body text.toList) 0 = .ok (g.pattern, n) := by
      rw [start]
      exact Reader.settled_eq_ok_iff.mpr ⟨Reader.writeOutAll_mono le hread.1, hread.2⟩
    exact ⟨g, compile_eq_ok_iff.mpr ⟨htext, ⟨n, read⟩, bounded⟩, fun _ => rfl⟩

end

theorem ranges_accounted_nested :
    (∃ ranges, Meets ["\x7bx\x7b1..3\x7d,\x7b9..-1\x7d\x7d".toList] ranges ∧ total ranges = 14) ∧
    ∃ g g', compile "\x7bx\x7b1..3\x7d,\x7b9..-1\x7d\x7d" 14 = .ok g ∧
      compile "\x7bx\x7b1..3\x7d,\x7b9..-1\x7d\x7d" 20 = .ok g' ∧
      g'.isMatch "x2" = g.isMatch "x2" := by
  obtain ⟨⟨ranges, held, decided⟩, monotone⟩ :=
    ranges_accounted "\x7bx\x7b1..3\x7d,\x7b9..-1\x7d\x7d"
  have beyond : compile "\x7bx\x7b1..3\x7d,\x7b9..-1\x7d\x7d" 13 =
      .error (.tooManyAlternatives "\x7bx\x7b1..3\x7d,\x7b9..-1\x7d\x7d" 13) := by
    decide +kernel
  have compiled : compile "\x7bx\x7b1..3\x7d,\x7b9..-1\x7d\x7d" 14 =
      .ok ⟨"\x7bx\x7b1..3\x7d,\x7b9..-1\x7d\x7d", .group (.either
        (.atom (.char 'x') (.atom (.numeral ⟨1, 3, some 1⟩) .nil))
        (.atom (.numeral ⟨-1, 9, some 1⟩) .nil)) .nil⟩ := by
    decide +kernel
  have more := ((decided 13 (by decide)).1.mp beyond).1
  obtain ⟨tooMany, noRoom⟩ := decided 14 (by decide)
  rw [compiled] at tooMany noRoom
  have roomy : ¬ Overfull 14 ranges := by
    intro full
    cases noRoom.mpr full
  have fewer : ¬ 14 < total ranges := by
    intro beyond
    cases tooMany.mpr ⟨beyond, roomy⟩
  obtain ⟨g', compiled', same⟩ := monotone 14 20 _ (by decide) compiled
  exact ⟨⟨ranges, (held ranges).mpr rfl, by omega⟩, _, g', compiled, compiled', same "x2"⟩

/-- Two ranges stand for more values than the limit, but the first is within it, and its values
cannot be written out. -/
theorem ranges_overfull :
    (∃ ranges,
      Meets ["\x7b0..9223372036854775806\x7d\x7b0..9223372036854775806\x7d".toList] ranges ∧
      9223372036854775807 < total ranges) ∧
    compile "\x7b0..9223372036854775806\x7d\x7b0..9223372036854775806\x7d" 9223372036854775807 =
      .error (.noRoom "\x7b0..9223372036854775806\x7d\x7b0..9223372036854775806\x7d") := by
  have parsed : Numerals.parse? "0..9223372036854775806".toList =
      some ⟨0, 9223372036854775806, none⟩ := by
    decide
  have range := Numerals.parse?_eq_some_iff.mp parsed
  have ends : Meets [[]] [] := .next .done
  exact ⟨⟨_, .numeral rfl range (.numeral rfl range ends), by decide⟩, by decide +kernel⟩

end EditorConfig.Glob
