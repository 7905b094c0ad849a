import EditorConfig.Proofs.Glob.Reading
import Mathlib.Data.Nat.Find
/-!
# Joining pattern texts

Pattern texts of ordinary characters and wildcards written one after another. The joined text
matches what the parts match one after another, unless stars at the end of the first part mean
something else in front of the second: a run of stars may grow, and two or more stars at the
beginning of a path segment stand for whole directories if a separator follows. Looking back, only
such stars at the beginning of a text can tell where they stand.
-/
namespace EditorConfig.Glob

/-- Ordinary characters, separators and wildcards. -/
def Wild (g : List Char) : Prop := ∀ c ∈ g, c ∉ ['\\', '[', ']', '{', '}', ',']

/-- Ordinary characters and separators, which stand for themselves. -/
def Literal (g : List Char) : Prop := ∀ c ∈ g, c ∉ ['\\', '*', '?', '[', ']', '{', '}', ',']

instance (g : List Char) : Decidable (Wild g) :=
  List.decidableBAll (fun c => c ∉ ['\\', '[', ']', '{', '}', ',']) g

instance (g : List Char) : Decidable (Literal g) :=
  List.decidableBAll (fun c => c ∉ ['\\', '*', '?', '[', ']', '{', '}', ',']) g

/-- The character in front of what is written behind `g`. -/
def lastOf (prev : Option Char) (g : List Char) : Option Char := g.getLast?.or prev

/-- Two or more stars with a separator behind them begin the text. -/
def OpensWithStars (g : List Char) : Prop :=
  ∃ n rest, g = List.replicate (n + 2) '*' ++ '/' :: rest

/-- Two or more stars at the beginning of a path segment end the text. -/
def EndsWithStars (prev : Option Char) (g : List Char) : Prop :=
  ∃ front n, g = front ++ List.replicate (n + 2) '*' ∧ front.getLast? ≠ some '*' ∧
    AtSegmentStart (lastOf prev front)

/-- Stars at the end of `g` mean something else in front of `rest`. -/
def Fuses (prev : Option Char) (g rest : List Char) : Prop :=
  (g.getLast? = some '*' ∧ rest.head? = some '*') ∨
    (EndsWithStars prev g ∧ rest.head? = some '/')

/-- A text of ordinary characters and wildcards behind `prev`, construct by construct. -/
inductive Simple : Option Char → List Char → Prop
  | nil {prev : Option Char} : Simple prev []
  | ordinary {prev : Option Char} {c : Char} {g : List Char}
      (plain : c ∉ ['\\', '?', '*', '[', '{']) : Simple (some c) g → Simple prev (c :: g)
  | anyChar {prev : Option Char} {g : List Char} : Simple (some '?') g → Simple prev ('?' :: g)
  | segment {prev : Option Char} {g : List Char} (single : g.head? ≠ some '*') :
      Simple (some '*') g → Simple prev ('*' :: g)
  | directories {prev : Option Char} {g : List Char} (n : Nat) (start : AtSegmentStart prev) :
      Simple (some '/') g → Simple prev (List.replicate (n + 2) '*' ++ '/' :: g)
  | anything {prev : Option Char} {g : List Char} (n : Nat) (all : g.head? ≠ some '*')
      (other : ¬ (AtSegmentStart prev ∧ g.head? = some '/')) :
      Simple (some '*') g → Simple prev (List.replicate (n + 2) '*' ++ g)

variable {prev : Option Char} {c : Char} {front g rest s : List Char} {n : Nat}

/-! ## Texts of ordinary characters and wildcards -/

theorem Literal.wild (h : Literal g) : Wild g := by
  have fewer : ['\\', '[', ']', '{', '}', ','] ⊆ ['\\', '*', '?', '[', ']', '{', '}', ','] := by
    decide
  exact fun c hc special => h c hc (fewer special)

theorem Literal.plain (h : Literal (c :: g)) : c ∉ ['\\', '?', '*', '[', '{'] := by
  have fewer : ['\\', '?', '*', '[', '{'] ⊆ ['\\', '*', '?', '[', ']', '{', '}', ','] := by decide
  exact fun special => h c List.mem_cons_self (fewer special)

theorem wild_append : Wild (front ++ g) ↔ Wild front ∧ Wild g := List.forall_mem_append

theorem Wild.branch (h : Wild g) : Branch g := by
  induction g with
  | nil => exact .nil
  | cons c g ih =>
    obtain ⟨hc, hg⟩ := List.forall_mem_cons.mp h
    simp only [List.mem_cons, List.not_mem_nil, or_false, not_or] at hc
    exact .plain hc.1 hc.2.2.2.1 hc.2.2.2.2.1 hc.2.2.2.2.2 (ih hg)

theorem lastOf_append (prev : Option Char) (front g : List Char) :
    lastOf prev (front ++ g) = lastOf (lastOf prev front) g := by
  simp only [lastOf, List.getLast?_append, Option.or_assoc]

theorem lastOf_cons (prev : Option Char) (c : Char) (g : List Char) :
    lastOf prev (c :: g) = lastOf (some c) g := by
  rw [← List.singleton_append, lastOf_append]
  rfl

theorem Wild.simple (wild : Wild g) (prev : Option Char) : Simple prev g := by
  induction hlength : g.length using Nat.strongRecOn generalizing prev g with
  | ind length ih =>
    subst hlength
    have onward : ∀ front rest, g = front ++ rest → front ≠ [] → ∀ prev, Simple prev rest := by
      rintro front rest rfl hne prev
      refine ih rest.length ?_ (wild_append.mp wild).2 prev rfl
      have := List.length_pos_of_ne_nil hne
      rw [List.length_append]
      omega
    cases g with
    | nil => exact .nil
    | cons c t =>
      by_cases star : c = '*'
      · -- The whole run of stars is one construct.
        obtain ⟨n, hn⟩ := exists_stars t
        have all := head?_dropWhile_stars t
        rw [star] at onward ⊢
        generalize t.dropWhile (· == '*') = g at hn all
        cases n with
        | zero =>
          obtain rfl : t = g := hn
          exact .segment all (onward ['*'] t rfl (by simp) _)
        | succ n =>
          have run : '*' :: t = List.replicate (n + 2) '*' ++ g := by
            rw [hn, List.replicate_succ]
            rfl
          rw [run] at onward ⊢
          by_cases whole : AtSegmentStart prev ∧ g.head? = some '/'
          · obtain ⟨rest, rfl⟩ := List.head?_eq_some_iff.mp whole.2
            have behind := onward (List.replicate (n + 2) '*' ++ ['/']) rest (by simp) (by simp)
            exact .directories n whole.1 (behind _)
          · exact .anything n all whole (onward _ g rfl (by simp) _)
      · have behind := onward [c] t rfl (by simp)
        by_cases question : c = '?'
        · exact question ▸ .anyChar (behind _)
        · refine .ordinary ?_ (behind _)
          have hc := wild c List.mem_cons_self
          simp only [List.mem_cons, List.not_mem_nil, or_false, not_or] at hc ⊢
          tauto

/-! ## What joined texts match -/

theorem then_assoc {L M N : List Char → Prop} :
    Then L (Then M N) s ↔ Then (Then L M) N s := by
  constructor
  · rintro ⟨u, _, rfl, hu, v, w, rfl, hv, hw⟩
    exact ⟨u ++ v, w, (List.append_assoc u v w).symm, ⟨u, v, rfl, hu, hv⟩, hw⟩
  · rintro ⟨_, w, rfl, ⟨u, v, rfl, hu, hv⟩, hw⟩
    exact ⟨u, v ++ w, List.append_assoc u v w, hu, v, w, rfl, hv, hw⟩

theorem then_congr {L L' M M' : List Char → Prop} (hL : ∀ u, L u ↔ L' u) (hM : ∀ v, M v ↔ M' v) :
    Then L M s ↔ Then L' M' s :=
  exists₂_congr fun u v => and_congr_right fun _ => and_congr (hL u) (hM v)

theorem then_eq {M : List Char → Prop} {t : List Char} :
    Then M (· = t) s ↔ ∃ u, M u ∧ s = u ++ t := by
  constructor
  · rintro ⟨u, _, rfl, hu, rfl⟩
    exact ⟨u, hu, rfl⟩
  · rintro ⟨u, hu, rfl⟩
    exact ⟨u, t, rfl, hu, rfl⟩

theorem denotes_starsSeparator (n : Nat) (start : AtSegmentStart prev) :
    Denotes prev (List.replicate (n + 2) '*' ++ '/' :: g) s ↔
      Then Directories (Denotes (some '/') g) s := by
  rw [List.replicate_succ, List.replicate_succ]
  exact denotes_directories (dropWhile_stars (by simp)) start

theorem denotes_stars (n : Nat) (all : g.head? ≠ some '*')
    (other : ¬ (AtSegmentStart prev ∧ g.head? = some '/')) :
    Denotes prev (List.replicate (n + 2) '*' ++ g) s ↔
      Then (Run fun _ => true) (Denotes (some '*') g) s := by
  have run := dropWhile_stars (n := n) all
  rw [List.replicate_succ, List.replicate_succ, List.cons_append, List.cons_append,
    denotes_anything (run.symm ▸ other), run]

/-- Stars that fuse with what stands behind them do so whatever stands in front. -/
theorem Fuses.behind (front : List Char) (h : Fuses (lastOf prev front) g rest)
    (apart : front.getLast? = some '*' → g.head? ≠ some '*') : Fuses prev (front ++ g) rest := by
  rcases h with ⟨last, star⟩ | ⟨⟨inner, n, rfl, before, start⟩, separator⟩
  · exact .inl ⟨by rw [List.getLast?_append, last]; rfl, star⟩
  · refine .inr ⟨⟨front ++ inner, n, (List.append_assoc ..).symm, ?_, ?_⟩, separator⟩
    · rw [List.getLast?_append]
      cases inner with
      | nil =>
        intro last
        exact apart last (by simp [List.replicate_succ])
      | cons c inner =>
        rw [List.getLast?_cons] at before ⊢
        exact before
    · rwa [lastOf_append]

/-- A construct in front of two parts goes with the first one. -/
theorem denotes_behind (front : List Char) {L : List Char → Prop} {p : Option Char}
    (last : lastOf prev front = p)
    (construct : ∀ t u, t = g ∨ t = g ++ rest →
      (Denotes prev (front ++ t) u ↔ Then L (Denotes p t) u))
    (joined : ∀ u, Denotes p (g ++ rest) u ↔ Then (Denotes p g) (Denotes (lastOf p g) rest) u) :
    Denotes prev (front ++ g ++ rest) s ↔
      Then (Denotes prev (front ++ g)) (Denotes (lastOf prev (front ++ g)) rest) s := by
  rw [List.append_assoc, construct _ s (.inr rfl), then_congr (fun _ => Iff.rfl) joined, then_assoc,
    lastOf_append, last]
  exact then_congr (fun u => (construct g u (.inl rfl)).symm) fun _ => Iff.rfl

/-- Texts that do not fuse match one after another. -/
theorem denotes_append (simple : Simple prev g) (apart : ¬ Fuses prev g rest) :
    Denotes prev (g ++ rest) s ↔ Then (Denotes prev g) (Denotes (lastOf prev g) rest) s := by
  induction simple generalizing s with
  | nil =>
    have empty : ∀ u, Denotes prev [] u ↔ u = [] := fun _ => denotes_nil
    simp [Then, denotes_nil, lastOf]
  | @ordinary prev c g plain _ ih =>
    have star : c ≠ '*' := by
      rintro rfl
      simp at plain
    have apart := fun h => apart (Fuses.behind [c] h (by simp [star]))
    exact denotes_behind [c] rfl (fun _ _ _ => denotes_ordinary plain) fun _ => ih apart
  | @anyChar prev g _ ih =>
    have apart := fun h => apart (Fuses.behind ['?'] h (by simp))
    exact denotes_behind ['?'] rfl (fun _ _ _ => denotes_anyChar) fun _ => ih apart
  | @segment prev g single _ ih =>
    have single' : (g ++ rest).head? ≠ some '*' := by
      cases g with
      | nil => exact fun star => apart (.inl ⟨rfl, star⟩)
      | cons d g => exact single
    have apart := fun h => apart (Fuses.behind ['*'] h fun _ => single)
    refine denotes_behind ['*'] (L := Run inSegment) rfl ?_ fun _ => ih apart
    rintro _ _ (rfl | rfl)
    · exact denotes_segment single
    · exact denotes_segment single'
  | @directories prev g n start _ ih =>
    rw [List.append_cons] at apart ⊢
    have last : lastOf prev (List.replicate (n + 2) '*' ++ ['/']) = some '/' := by simp [lastOf]
    have apart := fun h => apart (Fuses.behind _ (last ▸ h) (by simp))
    refine denotes_behind _ (L := Directories) last ?_ fun _ => ih apart
    rintro t _ -
    rw [← List.append_cons]
    exact denotes_starsSeparator n start
  | @anything prev g n all other _ ih =>
    have last : lastOf prev (List.replicate (n + 2) '*') = some '*' := by
      simp [lastOf, List.getLast?_replicate]
    have fuses := fun h => apart (Fuses.behind _ (last ▸ h) fun _ => all)
    refine denotes_behind _ (L := Run fun _ => true) last ?_ fun _ => ih fuses
    rintro _ _ (rfl | rfl)
    · exact denotes_stars n all other
    · cases g with
      | cons d g => exact denotes_stars n all other
      | nil =>
        -- The run of stars is the end of the first part.
        refine denotes_stars n (fun star => apart (.inl ⟨?_, star⟩)) fun h => apart (.inr ⟨?_, h.2⟩)
        · simp [List.getLast?_replicate]
        · exact ⟨[], n, by simp, by simp, h.1⟩

/-- Only stars at the beginning of a text can tell where the text stands. -/
theorem denotes_congr_prev {p q : Option Char} (simple : Simple p g)
    (same : OpensWithStars g → (AtSegmentStart p ↔ AtSegmentStart q)) :
    Denotes p g s ↔ Denotes q g s := by
  cases simple with
  | nil => rw [denotes_nil, denotes_nil]
  | ordinary plain _ => rw [denotes_ordinary plain, denotes_ordinary plain]
  | anyChar _ => rw [denotes_anyChar, denotes_anyChar]
  | segment single _ => rw [denotes_segment single, denotes_segment single]
  | directories n start _ =>
    have start' := (same ⟨n, _, rfl⟩).mp start
    rw [denotes_starsSeparator n start, denotes_starsSeparator n start']
  | @anything _ g n all other _ =>
    have other' : ¬ (AtSegmentStart q ∧ g.head? = some '/') := by
      rintro ⟨start, separator⟩
      obtain ⟨rest, rfl⟩ := List.head?_eq_some_iff.mp separator
      exact other ⟨(same ⟨n, rest, rfl⟩).mpr start, separator⟩
    rw [denotes_stars n all other, denotes_stars n all other']

/-- A text of ordinary characters matches itself only. -/
theorem denotes_literal (literal : Literal g) : Denotes prev g s ↔ s = g := by
  induction g generalizing prev s with
  | nil => exact denotes_nil
  | cons c g ih =>
    obtain ⟨-, hg⟩ := List.forall_mem_cons.mp literal
    rw [denotes_ordinary literal.plain, then_char]
    simp [ih hg, eq_comm]

/-- A text of ordinary characters and wildcards matches itself. -/
theorem denotes_self (simple : Simple prev g) : Denotes prev g g := by
  induction simple with
  | nil => exact .nil
  | ordinary plain _ ih => exact .ordinary plain ih
  | anyChar _ ih => exact .anyChar (by decide) ih
  | @segment _ g single _ ih => exact .segment (u := ['*']) single (by decide) ih
  | directories n start _ ih =>
    rw [denotes_starsSeparator n start]
    exact ⟨List.replicate (n + 2) '*' ++ ['/'], _, by simp, .inr ⟨_, rfl⟩, ih⟩
  | anything n all other _ ih =>
    rw [denotes_stars n all other]
    exact ⟨_, _, rfl, fun _ _ => rfl, ih⟩

/-- Some text is the shortest that a text of ordinary characters and wildcards matches. -/
theorem exists_shortest (simple : Simple prev g) :
    ∃ u, Denotes prev g u ∧ ∀ v, Denotes prev g v → u.length ≤ v.length := by
  have some_length : ∃ n u, Denotes prev g u ∧ u.length = n := ⟨_, g, denotes_self simple, rfl⟩
  classical
  obtain ⟨u, hu, hlength⟩ := Nat.find_spec some_length
  refine ⟨u, hu, fun v hv => ?_⟩
  rw [hlength]
  exact Nat.find_min' some_length ⟨v, hv, rfl⟩

end EditorConfig.Glob
