import EditorConfig.Proofs.Glob.Choosing
/-!
# Reading one atom after another

At the beginning of a pattern text stands an atom, an unclosed bracket, a range of numerals or a
choice. `Step` says which atom it is and what is written behind it; for the reader and for the
language a step is the atom in front of the rest. An induction over a text has one case for each of
the four and one for the end, and no step looks back farther than to the beginning of a path
segment.
-/
namespace EditorConfig.Glob

/-- Behind `prev`, the text `g` begins with what is read as the atom `a`; `rest` is written behind
it and behind the character `p`. -/
inductive Step : Option Char → List Char → Atom → Option Char → List Char → Prop
  | lastBackslash {prev : Option Char} : Step prev ['\\'] (.char '\\') (some '\\') []
  | escaped {prev : Option Char} {c : Char} {g : List Char} :
      Step prev ('\\' :: c :: g) (.char c) (some c) g
  | ordinary {prev : Option Char} {c : Char} {g : List Char}
      (plain : c ∉ ['\\', '?', '*', '[', '{']) : Step prev (c :: g) (.char c) (some c) g
  | anyChar {prev : Option Char} {g : List Char} : Step prev ('?' :: g) .anyChar (some '?') g
  | segment {prev : Option Char} {g : List Char} (single : g.head? ≠ some '*') :
      Step prev ('*' :: g) .segment (some '*') g
  | directories {prev : Option Char} {t g : List Char}
      (run : t.dropWhile (· == '*') = '/' :: g) (start : AtSegmentStart prev) :
      Step prev ('*' :: '*' :: t) .directories (some '/') g
  | anything {prev : Option Char} {t g : List Char} (run : t.dropWhile (· == '*') = g)
      (other : ¬ (AtSegmentStart prev ∧ g.head? = some '/')) :
      Step prev ('*' :: '*' :: t) .anything (some '*') g
  | bracket {prev : Option Char} {set : CharSet} {t rest : List Char}
      (closed : Bracket.read t = .set set rest) : Step prev ('[' :: t) (.oneOf set) (some ']') rest
  | plainBracket {prev : Option Char} {t : List Char} (plain : Bracket.read t = .plain) :
      Step prev ('[' :: t) (.char '[') (some '[') t
  | plainBrace {prev : Option Char} {t : List Char} (plain : ¬ OpensGroup t) :
      Step prev ('{' :: t) (.char '{') (some '{') t

/-- What can stand at the beginning of a text behind `prev`. -/
inductive Begins (prev : Option Char) : List Char → Prop
  | nil : Begins prev []
  | step {a : Atom} {p : Option Char} {g rest : List Char} (step : Step prev g a p rest) :
      Begins prev g
  | unclosed {t : List Char} (unclosed : Bracket.read t = .unclosed) : Begins prev ('[' :: t)
  | numeral {t inner rest : List Char} {range : Numerals}
      (closed : Braces.close? 0 t = some (inner, rest))
      (parsed : Numerals.parse? inner = some range) : Begins prev ('{' :: t)
  | choice {t inner rest : List Char} (closed : Braces.close? 0 t = some (inner, rest))
      (parsed : Numerals.parse? inner = none) (several : 2 ≤ (Braces.split 0 inner).length) :
      Begins prev ('{' :: t)

/-- Behind `prev`, the text `g` begins with what is read as `atoms`; `rest` is written behind them
and behind the character `p`. -/
inductive Steps : Option Char → List Char → List Atom → Option Char → List Char → Prop
  | refl {prev : Option Char} {g : List Char} : Steps prev g [] prev g
  | cons {prev p q : Option Char} {g t rest : List Char} {a : Atom} {atoms : List Atom} :
      Step prev g a p t → Steps p t atoms q rest → Steps prev g (a :: atoms) q rest

/-- Atoms in front of a pattern. -/
def Pattern.behind (atoms : List Atom) (e : Pattern) : Pattern := atoms.foldr .atom e

variable {limit count k : Nat} {prev p q : Option Char} {g t rest s : List Char} {a : Atom}
  {atoms : List Atom}

/-! ## One step -/

theorem Step.congr (h : Step prev g a p rest) (same : AtSegmentStart prev ↔ AtSegmentStart q) :
    Step q g a p rest := by
  cases h with
  | lastBackslash => exact .lastBackslash
  | escaped => exact .escaped
  | ordinary plain => exact .ordinary plain
  | anyChar => exact .anyChar
  | segment single => exact .segment single
  | directories run start => exact .directories run (same.mp start)
  | anything run other => exact .anything run fun h => other ⟨same.mpr h.1, h.2⟩
  | bracket closed => exact .bracket closed
  | plainBracket plain => exact .plainBracket plain
  | plainBrace plain => exact .plainBrace plain

theorem Step.length_lt (h : Step prev g a p rest) : rest.length < g.length := by
  cases h with
  | directories run _ =>
    have := Reader.length_of_dropStars run
    simp only [List.length_cons] at this ⊢
    omega
  | anything run _ =>
    have := Reader.length_of_dropStars run
    simp only [List.length_cons]
    omega
  | bracket closed =>
    have := Bracket.length_of_read closed
    simp only [List.length_cons]
    omega
  | escaped =>
    simp only [List.length_cons]
    omega
  | _ => simp

theorem denotes_step (h : Step prev g a p rest) :
    Denotes prev g s ↔ Then a.Matches (Denotes p rest) s := by
  cases h with
  | lastBackslash =>
    rw [denotes_lastBackslash]
    exact (then_char.trans (by simp [denotes_nil])).symm
  | escaped => exact denotes_escaped
  | ordinary plain => exact denotes_ordinary plain
  | anyChar => exact denotes_anyChar
  | segment single => exact denotes_segment single
  | directories run start => exact denotes_directories run start
  | anything run other =>
    subst run
    exact denotes_anything other
  | bracket closed => exact denotes_bracket closed
  | plainBracket plain => exact denotes_plainBracket plain
  | plainBrace plain => exact denotes_plainBrace plain

namespace Reader
variable [Engine]

theorem readFrom_step (h : Step prev g a p rest) :
    readFrom limit prev g count = onto a (readFrom limit p rest count) := by
  cases h with
  | lastBackslash =>
    rw [readFrom, readFrom]
    rfl
  | escaped =>
    rw [readFrom]
    rfl
  | ordinary plain => exact readFrom_ordinary plain
  | anyChar =>
    rw [readFrom]
    rfl
  | segment single => exact readFrom_segment single
  | directories run start => exact readFrom_directories run start
  | anything run other =>
    subst run
    exact readFrom_anything other
  | bracket closed => exact readFrom_bracket closed
  | plainBracket plain => exact readFrom_plainBracket plain
  | plainBrace plain => exact readFrom_plainBrace plain

end Reader

/-- The language of a text depends on what is written before it only by whether a path segment
begins there. -/
theorem Denotes.congr (h : Denotes prev g s) (same : AtSegmentStart prev ↔ AtSegmentStart q) :
    Denotes q g s := by
  cases h with
  | nil => exact .nil
  | lastBackslash => exact .lastBackslash
  | escaped h => exact .escaped h
  | anyChar inside h => exact .anyChar inside h
  | segment single inside h => exact .segment single inside h
  | anything run all other h => exact .anything run all (fun h => other ⟨same.mpr h.1, h.2⟩) h
  | directories run start whole h => exact .directories run (same.mp start) whole h
  | bracket closed inside chosen h => exact .bracket closed inside chosen h
  | plainBracket closed separator h => exact .plainBracket closed separator h
  | numeral braces range between spelled h => exact .numeral braces range between spelled h
  | choice braces choices member hb h => exact .choice braces choices member hb h
  | plainBrace plain h => exact .plainBrace plain h
  | ordinary plain h => exact .ordinary plain h

/-! ## What stands at the beginning -/

theorem begins_stars (prev : Option Char) (t : List Char) : Begins prev ('*' :: t) := by
  by_cases single : t.head? = some '*'
  · obtain ⟨t, rfl⟩ := List.head?_eq_some_iff.mp single
    by_cases whole : AtSegmentStart prev ∧ (t.dropWhile (· == '*')).head? = some '/'
    · obtain ⟨g, run⟩ := List.head?_eq_some_iff.mp whole.2
      exact .step (.directories run whole.1)
    · exact .step (.anything rfl whole)
  · exact .step (.segment single)

theorem begins_bracket (prev : Option Char) (t : List Char) : Begins prev ('[' :: t) := by
  cases h : Bracket.read t with
  | unclosed => exact .unclosed h
  | plain => exact .step (.plainBracket h)
  | set set rest => exact .step (.bracket h)

theorem begins_brace (prev : Option Char) (t : List Char) : Begins prev ('{' :: t) := by
  by_cases opens : OpensGroup t
  · obtain ⟨inner, rest, closed, ⟨range, parsed⟩ | several⟩ := opensGroup_iff.mp opens
    · exact .numeral closed parsed
    · cases parsed : Numerals.parse? inner with
      | some range => exact .numeral closed parsed
      | none => exact .choice closed parsed several
  · exact .step (.plainBrace opens)

theorem begins (prev : Option Char) (g : List Char) : Begins prev g := by
  cases g with
  | nil => exact .nil
  | cons c t =>
    by_cases special : c ∈ ['\\', '?', '*', '[', '{']
    · simp only [List.mem_cons, List.not_mem_nil, or_false] at special
      rcases special with rfl | rfl | rfl | rfl | rfl
      · cases t with
        | nil => exact .step .lastBackslash
        | cons d t => exact .step .escaped
      · exact .step .anyChar
      · exact begins_stars prev t
      · exact begins_bracket prev t
      · exact begins_brace prev t
    · exact .step (.ordinary special)

theorem Braces.length_lt_size {b : List Char} {parts : List (List Char)} (h : b ∈ parts) :
    b.length < Braces.size parts := by
  induction parts with
  | nil => cases h
  | cons part parts ih =>
    rw [Braces.size]
    rcases List.mem_cons.mp h with rfl | h
    · omega
    · have := ih h
      omega

theorem Braces.exists_split {inner : List Char} (several : 2 ≤ (Braces.split 0 inner).length) :
    ∃ first second others, Braces.split 0 inner = first :: second :: others := by
  generalize Braces.split 0 inner = parts at several ⊢
  rcases parts with _ | ⟨first, _ | ⟨second, others⟩⟩
  · cases several
  · simp at several
  · exact ⟨first, second, others, rfl⟩

/-- Induction over a text: what is written behind an atom, a range or a choice is shorter, and so
are the alternatives of a choice, which are texts of their own. -/
@[elab_as_elim]
theorem text_induction {motive : Option Char → List Char → Prop}
    (nil : ∀ prev, motive prev [])
    (step : ∀ {prev g a p rest}, Step prev g a p rest → motive p rest → motive prev g)
    (unclosed : ∀ prev {t}, Bracket.read t = .unclosed → motive prev ('[' :: t))
    (numeral : ∀ prev {t inner rest range}, Braces.close? 0 t = some (inner, rest) →
      Numerals.parse? inner = some range → motive (some '}') rest → motive prev ('{' :: t))
    (choice : ∀ prev {t inner rest}, Braces.close? 0 t = some (inner, rest) →
      Numerals.parse? inner = none → 2 ≤ (Braces.split 0 inner).length →
      (∀ b ∈ Braces.split 0 inner, motive none b) → motive (some '}') rest →
      motive prev ('{' :: t))
    (prev : Option Char) (g : List Char) : motive prev g := by
  induction hlength : g.length using Nat.strongRecOn generalizing prev g with
  | ind length ih =>
    subst hlength
    have onward : ∀ p rest, rest.length < g.length → motive p rest :=
      fun p rest shorter => ih rest.length shorter p rest rfl
    cases begins prev g with
    | nil => exact nil prev
    | step h => exact step h (onward _ _ h.length_lt)
    | unclosed h => exact unclosed prev h
    | numeral closed parsed =>
      have := Braces.length_of_close? closed
      refine numeral prev closed parsed (onward _ _ ?_)
      rw [List.length_cons]
      omega
    | @choice t inner rest closed parsed several =>
      have := Braces.length_of_close? closed
      refine choice prev closed parsed several (fun b member => onward _ _ ?_) (onward _ _ ?_)
      · have part := Braces.length_lt_size member
        rw [Braces.size_split] at part
        rw [List.length_cons]
        omega
      · rw [List.length_cons]
        omega

/-! ## Several steps -/

theorem Steps.trans {more : List Atom} {r : Option Char} {u : List Char}
    (h : Steps prev g atoms p t) (h' : Steps p t more r u) : Steps prev g (atoms ++ more) r u := by
  induction h with
  | refl => exact h'
  | cons step _ ih => exact .cons step (ih h')

/-- Ordinary characters are read as themselves. -/
theorem steps_ordinary (prev : Option Char) (rest : List Char)
    (plain : ∀ c ∈ t, c ∉ ['\\', '?', '*', '[', '{']) :
    Steps prev (t ++ rest) (t.map .char) (lastOf prev t) rest := by
  induction t generalizing prev with
  | nil => exact .refl
  | cons c t ih =>
    obtain ⟨hc, ht⟩ := List.forall_mem_cons.mp plain
    rw [lastOf_cons]
    exact .cons (.ordinary hc) (ih (some c) ht)

/-- A text that is read as the characters of `t` matches `t` in front of what the rest matches. -/
theorem denotes_chars (h : Steps prev g (t.map .char) p rest) :
    Denotes prev g s ↔ ∃ u, s = t ++ u ∧ Denotes p rest u := by
  induction t generalizing prev g s with
  | nil =>
    cases h
    simp
  | cons c t ih =>
    cases h with
    | cons step behind =>
      rw [denotes_step step, Atom.Matches, then_char]
      simp [ih behind]

namespace Reader
variable [Engine]

/-- What is read of the rest is found behind the atoms. -/
theorem readFrom_steps (h : Steps prev g atoms p rest) :
    readFrom limit prev g count =
      (readFrom limit p rest count).map fun (e, n) => (e.behind atoms, n) := by
  induction h with
  | refl =>
    cases readFrom limit _ _ count <;> rfl
  | cons step _ ih =>
    rw [readFrom_step step, ih]
    cases readFrom limit _ _ count <;> rfl

/-- Behind characters that stand for themselves reading goes on. -/
theorem Reads.behind_chars (h : Steps prev g (t.map .char) p rest) (reads : Reads limit k p rest) :
    Reads limit k prev g := by
  induction t generalizing prev g with
  | nil =>
    cases h
    exact reads
  | cons c t ih =>
    cases h with
    | cons step behind =>
      exact (ih behind).onto (a := .char c) rfl (Nat.zero_le k) fun _ => readFrom_step step

/-- The reader looks back only to see where a path segment begins. -/
theorem readFrom_congr (same : AtSegmentStart prev ↔ AtSegmentStart q) :
    readFrom limit prev g count = readFrom limit q g count := by
  cases begins prev g with
  | nil => rw [readFrom, readFrom]
  | step step => rw [readFrom_step step, readFrom_step (step.congr same)]
  | unclosed unclosed => rw [readFrom_unclosed unclosed, readFrom_unclosed unclosed]
  | numeral closed parsed => rw [readFrom_numeral closed parsed, readFrom_numeral closed parsed]
  | @choice t inner rest closed parsed several =>
    obtain ⟨first, second, others, hsplit⟩ := Braces.exists_split several
    rw [readFrom_choice closed parsed hsplit, readFrom_choice closed parsed hsplit]

end Reader

end EditorConfig.Glob
