import EditorConfig.Glob.Marks
import Mathlib.Data.List.Basic
/-!
# Where marks move

A way of moving marks is described by the texts it moves them over: `Leaves L s t` says that a text
of `L` in front of `s` leaves `t`, and `Reaches L m t` that some pending text of `m` leaves `t`. In
the lemmas about the recursive functions, marks that arrive from the left are a separate case; the
lemmas about the moves themselves let none arrive.
-/
namespace EditorConfig.Glob

/-- `t` is what remains of `s` behind a text of `L`. -/
def Leaves (L : List Char → Prop) (s t : List Char) : Prop := ∃ u, L u ∧ u ++ t = s

/-- One character that satisfies `p`. -/
def One (p : Char → Bool) (u : List Char) : Prop := ∃ c, p c = true ∧ u = [c]

/-- Any number of characters that satisfy `p`. -/
def Run (p : Char → Bool) (u : List Char) : Prop := ∀ c ∈ u, p c = true

/-- A text whose last character is the separator. -/
def EndsInSeparator (u : List Char) : Prop := ∃ v, u = v ++ ['/']

/-- Nothing, or a text whose last character is the separator. -/
def Directories (u : List Char) : Prop := u = [] ∨ EndsInSeparator u

/-- A text of `L` and a text of `M` behind it. -/
def Then (L M : List Char → Prop) (s : List Char) : Prop := ∃ u v, s = u ++ v ∧ L u ∧ M v

theorem leaves_nil {L : List Char → Prop} {t : List Char} : Leaves L [] t ↔ L [] ∧ t = [] := by
  constructor
  · rintro ⟨u, hu, h⟩
    obtain ⟨rfl, rfl⟩ := List.append_eq_nil_iff.mp h
    exact ⟨hu, rfl⟩
  · rintro ⟨h, rfl⟩
    exact ⟨[], h, rfl⟩

theorem leaves_cons {L : List Char → Prop} {c : Char} {s t : List Char} :
    Leaves L (c :: s) t ↔ (L [] ∧ t = c :: s) ∨ Leaves (fun u => L (c :: u)) s t := by
  constructor
  · rintro ⟨u, hu, h⟩
    cases u with
    | nil => exact Or.inl ⟨hu, h⟩
    | cons d u =>
      obtain ⟨rfl, hs⟩ := List.cons.inj h
      exact Or.inr ⟨u, hu, hs⟩
  · rintro (⟨hu, rfl⟩ | ⟨u, hu, rfl⟩)
    · exact ⟨[], hu, rfl⟩
    · exact ⟨c :: u, hu, rfl⟩

theorem leaves_one_cons {p : Char → Bool} {c : Char} {s t : List Char} :
    Leaves (One p) (c :: s) t ↔ p c = true ∧ t = s := by
  constructor
  · rintro ⟨_, ⟨d, hd, rfl⟩, h⟩
    obtain ⟨rfl, rfl⟩ := List.cons.inj h
    exact ⟨hd, rfl⟩
  · rintro ⟨hc, rfl⟩
    exact ⟨[c], ⟨c, hc, rfl⟩, rfl⟩

theorem leaves_run_cons {p : Char → Bool} {c : Char} {s t : List Char} :
    Leaves (Run p) (c :: s) t ↔ t = c :: s ∨ (p c = true ∧ Leaves (Run p) s t) := by
  constructor
  · rintro ⟨u, hu, h⟩
    cases u with
    | nil => exact Or.inl h
    | cons d u =>
      obtain ⟨rfl, hs⟩ := List.cons.inj h
      exact Or.inr ⟨hu d List.mem_cons_self, u, fun e he => hu e (List.mem_cons_of_mem d he), hs⟩
  · rintro (rfl | ⟨hc, u, hu, rfl⟩)
    · exact ⟨[], List.forall_mem_nil _, rfl⟩
    · exact ⟨c :: u, List.forall_mem_cons.mpr ⟨hc, hu⟩, rfl⟩

theorem leaves_endsInSeparator_cons {c : Char} {s t : List Char} :
    Leaves EndsInSeparator (c :: s) t ↔ (c = '/' ∧ t = s) ∨ Leaves EndsInSeparator s t := by
  constructor
  · rintro ⟨_, ⟨v, rfl⟩, h⟩
    cases v with
    | nil =>
      obtain ⟨rfl, rfl⟩ := List.cons.inj h
      exact Or.inl ⟨rfl, rfl⟩
    | cons d v => exact Or.inr ⟨v ++ ['/'], ⟨v, rfl⟩, (List.cons.inj h).2⟩
  · rintro (⟨rfl, rfl⟩ | ⟨_, ⟨v, rfl⟩, rfl⟩)
    · exact ⟨['/'], ⟨[], rfl⟩, rfl⟩
    · exact ⟨c :: v ++ ['/'], ⟨c :: v, rfl⟩, rfl⟩

theorem leaves_directories {s t : List Char} :
    Leaves Directories s t ↔ t = s ∨ Leaves EndsInSeparator s t := by
  constructor
  · rintro ⟨u, rfl | hu, h⟩
    · exact Or.inl h
    · exact Or.inr ⟨u, hu, h⟩
  · rintro (rfl | ⟨u, hu, h⟩)
    · exact ⟨[], Or.inl rfl, rfl⟩
    · exact ⟨u, Or.inr hu, h⟩

namespace Marks

/-- `t` is what remains of a pending text behind a text of `L`. -/
def Reaches (L : List Char → Prop) (m : Marks) (t : List Char) : Prop :=
  ∃ s ∈ m.pending, Leaves L s t

theorem mem_pending_last {here : Bool} {t : List Char} :
    t ∈ (last here).pending ↔ here = true ∧ t = [] := by
  cases here <;> simp [pending]

theorem mem_pending_cons {here : Bool} {c : Char} {rest : Marks} {t : List Char} :
    t ∈ (cons here c rest).pending ↔
      (here = true ∧ t = c :: rest.text) ∨ t ∈ rest.pending := by
  cases here <;> simp [pending]

theorem reaches_last {L : List Char → Prop} {here : Bool} {t : List Char} :
    Reaches L (last here) t ↔ here = true ∧ Leaves L [] t := by
  simp only [Reaches, mem_pending_last, and_assoc, exists_eq_left, exists_and_left]

theorem reaches_cons {L : List Char → Prop} {here : Bool} {c : Char} {rest : Marks}
    {t : List Char} :
    Reaches L (cons here c rest) t ↔
      (here = true ∧ Leaves L (c :: rest.text) t) ∨ Reaches L rest t := by
  simp only [Reaches, mem_pending_cons, or_and_right, exists_or, and_assoc, exists_eq_left,
    exists_and_left]

theorem reaches_comp {L M : List Char → Prop} {m n : Marks}
    (h : ∀ t, t ∈ n.pending ↔ Reaches L m t) {t : List Char} :
    Reaches M n t ↔ Reaches (Then L M) m t := by
  constructor
  · rintro ⟨_, hs, v, hv, rfl⟩
    obtain ⟨s, hs, u, hu, rfl⟩ := (h _).mp hs
    exact ⟨_, hs, u ++ v, ⟨u, v, rfl, hu, hv⟩, by simp⟩
  · rintro ⟨_, hs, _, ⟨u, v, rfl, hu, hv⟩, rfl⟩
    exact ⟨v ++ t, (h _).mpr ⟨_, hs, u, hu, by simp⟩, v, hv, rfl⟩

/-! ## Marks to begin with -/

@[simp] theorem text_blank (s : List Char) : (blank s).text = s := by
  induction s with
  | nil => rfl
  | cons c s ih => simp [blank, text, ih]

@[simp] theorem pending_blank (s : List Char) : (blank s).pending = [] := by
  induction s with
  | nil => rfl
  | cons c s ih => simp [blank, pending, ih]

@[simp] theorem pending_atStart (s : List Char) : (atStart s).pending = [s] := by
  cases s with
  | nil => rfl
  | cons c s => simp [atStart, pending]

theorem endMarked_iff {m : Marks} : m.endMarked = true ↔ [] ∈ m.pending := by
  induction m with
  | last here => simp [endMarked, mem_pending_last]
  | cons here c rest ih => simp [endMarked, mem_pending_cons, ih]

/-! ## Both marks -/

theorem text_union (m n : Marks) : (union m n).text = m.text := by
  fun_induction union m n with
  | case1 => rfl
  | case2 a c s b d t ih => simp [text, ih]
  | case3 => rfl

theorem mem_pending_union {m n : Marks} (h : m.text = n.text) {t : List Char} :
    t ∈ (union m n).pending ↔ t ∈ m.pending ∨ t ∈ n.pending := by
  fun_induction union m n with
  | case1 a b => simp [mem_pending_last, or_and_right]
  | case2 a c s b d u ih =>
    obtain ⟨rfl, hs⟩ := List.cons.inj h
    simp only [mem_pending_cons, Bool.or_eq_true, text_union, ih hs, hs]
    tauto
  | case3 m n hl hc =>
    cases m with
    | last a =>
      cases n with
      | last b => exact (hl a b rfl rfl).elim
      | cons b d u => simp [text] at h
    | cons a c s =>
      cases n with
      | last b => simp [text] at h
      | cons b d u => exact (hc a c s b d u rfl rfl).elim

/-! ## One character and runs of characters -/

@[simp] theorem text_stepFrom (p : Char → Bool) (carry : Bool) (m : Marks) :
    (stepFrom p carry m).text = m.text := by
  induction m generalizing carry with
  | last here => rfl
  | cons here c rest ih => simp [stepFrom, text, ih]

theorem mem_pending_stepFrom {p : Char → Bool} {carry : Bool} {m : Marks} {t : List Char} :
    t ∈ (stepFrom p carry m).pending ↔
      (carry = true ∧ t = m.text) ∨ Reaches (One p) m t := by
  induction m generalizing carry with
  | last here => simp [stepFrom, mem_pending_last, reaches_last, leaves_nil, One, text]
  | cons here c rest ih =>
    simp only [stepFrom, mem_pending_cons, text_stepFrom, ih, Bool.and_eq_true, text,
      reaches_cons, leaves_one_cons]
    tauto

@[simp] theorem text_step (p : Char → Bool) (m : Marks) : (step p m).text = m.text :=
  text_stepFrom p false m

theorem mem_pending_step {p : Char → Bool} {m : Marks} {t : List Char} :
    t ∈ (step p m).pending ↔ Reaches (One p) m t := by
  simp [step, mem_pending_stepFrom]

@[simp] theorem text_spreadFrom (p : Char → Bool) (carry : Bool) (m : Marks) :
    (spreadFrom p carry m).text = m.text := by
  induction m generalizing carry with
  | last here => rfl
  | cons here c rest ih => simp [spreadFrom, text, ih]

theorem mem_pending_spreadFrom {p : Char → Bool} {carry : Bool} {m : Marks} {t : List Char} :
    t ∈ (spreadFrom p carry m).pending ↔
      (carry = true ∧ Leaves (Run p) m.text t) ∨ Reaches (Run p) m t := by
  induction m generalizing carry with
  | last here =>
    simp [spreadFrom, mem_pending_last, reaches_last, leaves_nil, Run, text, or_and_right]
  | cons here c rest ih =>
    simp only [spreadFrom, mem_pending_cons, text_spreadFrom, ih, Bool.and_eq_true,
      Bool.or_eq_true, text, reaches_cons, leaves_run_cons]
    tauto

@[simp] theorem text_spread (p : Char → Bool) (m : Marks) : (spread p m).text = m.text :=
  text_spreadFrom p false m

theorem mem_pending_spread {p : Char → Bool} {m : Marks} {t : List Char} :
    t ∈ (spread p m).pending ↔ Reaches (Run p) m t := by
  simp [spread, mem_pending_spreadFrom]

/-! ## Whole directories -/

@[simp] theorem text_descendFrom (seen after : Bool) (m : Marks) :
    (descendFrom seen after m).text = m.text := by
  induction m generalizing seen after with
  | last here => rfl
  | cons here c rest ih => simp [descendFrom, text, ih]

theorem mem_pending_descendFrom {seen after : Bool} {m : Marks} {t : List Char} :
    t ∈ (descendFrom seen after m).pending ↔
      (after = true ∧ t = m.text) ∨ (seen = true ∧ Leaves EndsInSeparator m.text t) ∨
        Reaches Directories m t := by
  induction m generalizing seen after with
  | last here =>
    simp [descendFrom, mem_pending_last, reaches_last, leaves_nil, EndsInSeparator, Directories,
      text, or_and_right, or_comm]
  | cons here c rest ih =>
    simp only [descendFrom, mem_pending_cons, text_descendFrom, ih, Bool.and_eq_true,
      Bool.or_eq_true, beq_iff_eq, text, reaches_cons, leaves_directories,
      leaves_endsInSeparator_cons]
    tauto

@[simp] theorem text_descend (m : Marks) : (descend m).text = m.text :=
  text_descendFrom false false m

theorem mem_pending_descend {m : Marks} {t : List Char} :
    t ∈ (descend m).pending ↔ Reaches Directories m t := by
  simp [descend, mem_pending_descendFrom]

/-! ## Words -/

@[simp] theorem text_wordsFrom (viable accepted : List Char → Bool) (live : List (List Char))
    (m : Marks) : (wordsFrom viable accepted live m).text = m.text := by
  induction m generalizing live with
  | last here => rfl
  | cons here c rest ih => simp [wordsFrom, text, ih]

/-- The words begun at a position are the live ones and, at a mark, the empty one. -/
theorem exists_begun {here : Bool} {live : List (List Char)} {P : List Char → Prop} :
    (∃ w ∈ (if here then [] :: live else live), P w) ↔
      (∃ w ∈ live, P w) ∨ (here = true ∧ P []) := by
  cases here <;> simp [or_comm]

/-- A live word is read on as long as it is viable; none is lost, since every beginning of an
accepted word is viable. -/
theorem mem_pending_wordsFrom {viable accepted : List Char → Bool}
    (keeps : ∀ u v, accepted (u ++ v) = true → u ≠ [] → viable u = true)
    {live : List (List Char)} {m : Marks} {t : List Char} :
    t ∈ (wordsFrom viable accepted live m).pending ↔
      (∃ w ∈ live, Leaves (fun v => accepted (w.reverse ++ v) = true) m.text t) ∨
        Reaches (fun u => accepted u = true) m t := by
  induction m generalizing live with
  | last here =>
    simp only [wordsFrom, mem_pending_last, List.any_eq_true, exists_begun, reaches_last,
      leaves_nil, text, List.append_nil, List.reverse_nil, or_and_right, ← exists_and_right,
      and_assoc]
  | cons here c rest ih =>
    have onward : ∀ w : List Char,
        Leaves (fun v => accepted (w.reverse ++ v) = true) (c :: rest.text) t ↔
        (accepted w.reverse = true ∧ t = c :: rest.text) ∨
          (viable (w.reverse ++ [c]) = true ∧
            Leaves (fun v => accepted (w.reverse ++ [c] ++ v) = true) rest.text t) := by
      intro w
      have alive : Leaves (fun v => accepted (w.reverse ++ [c] ++ v) = true) rest.text t →
          viable (w.reverse ++ [c]) = true := by
        rintro ⟨v, hv, _⟩
        exact keeps _ v hv (by simp)
      rw [leaves_cons, List.append_nil]
      simp only [List.append_assoc, List.singleton_append] at alive ⊢
      tauto
    have begun : Reaches (fun u => accepted u = true) (cons here c rest) t ↔
        (here = true ∧ Leaves (fun v => accepted ([].reverse ++ v) = true) (c :: rest.text) t) ∨
          Reaches (fun u => accepted u = true) rest t := reaches_cons
    rw [begun, text, ← or_assoc, ← exists_begun (P := fun w =>
      Leaves (fun v => accepted (w.reverse ++ v) = true) (c :: rest.text) t)]
    simp only [wordsFrom, mem_pending_cons, text_wordsFrom, ih, List.any_eq_true, List.mem_filter,
      List.mem_map, onward]
    generalize (if here then [] :: live else live) = words
    constructor
    · rintro (⟨⟨w, hw, ha⟩, ht⟩ | ⟨_, ⟨⟨w, hw, rfl⟩, hv⟩, h⟩ | h)
      · exact Or.inl ⟨w, hw, Or.inl ⟨ha, ht⟩⟩
      · exact Or.inl ⟨w, hw, Or.inr ⟨by simpa using hv, by simpa using h⟩⟩
      · exact Or.inr h
    · rintro (⟨w, hw, ⟨ha, ht⟩ | ⟨hv, h⟩⟩ | h)
      · exact Or.inl ⟨⟨w, hw, ha⟩, ht⟩
      · exact Or.inr (Or.inl ⟨c :: w, ⟨⟨w, hw, rfl⟩, by simpa using hv⟩, by simpa using h⟩)
      · exact Or.inr (Or.inr h)

@[simp] theorem text_words (viable accepted : List Char → Bool) (m : Marks) :
    (words viable accepted m).text = m.text :=
  text_wordsFrom viable accepted [] m

theorem mem_pending_words {viable accepted : List Char → Bool}
    (keeps : ∀ u v, accepted (u ++ v) = true → u ≠ [] → viable u = true)
    {m : Marks} {t : List Char} :
    t ∈ (words viable accepted m).pending ↔ Reaches (fun u => accepted u = true) m t := by
  simp [words, mem_pending_wordsFrom keeps]

end Marks

end EditorConfig.Glob
