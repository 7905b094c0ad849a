import EditorConfig.Proofs.Glob.Joining
/-!
# Choices between pattern texts

A choice between pattern texts is read whenever each of them is, stays far below the nesting limit
if they do, and matches what one of them matches. Whether a glob is accepted for a path is told here
by the language of its text, for texts behind a leading separator and for texts without one; only
the size of its program is up to the engine.
-/
namespace EditorConfig.Glob

/-- The pattern text compiles under the limit and matches the path. -/
def Accepts [Engine] (limit : Nat) (text path : String) : Prop :=
  ∃ g, compile text limit = .ok g ∧ g.isMatch path = true

/-- The program for what the text is read as is not too large. -/
def Fits [Engine] (limit : Nat) (text : String) : Prop :=
  ∀ e n, Reader.readFrom limit none (body text.toList) 0 = .ok (e, n) → Engine.size e ≤ maxSize

theorem fits_iff [Engine] {limit : Nat} {text : String} : Fits limit text ↔
    (Reader.readFrom limit none (body text.toList) 0).toOption.all
      fun found => Engine.size found.1 ≤ maxSize := by
  unfold Fits
  cases Reader.readFrom limit none (body text.toList) 0 <;> simp [Except.toOption, Prod.ext_iff]

instance [Engine] (limit : Nat) (text : String) : Decidable (Fits limit text) :=
  decidable_of_iff' _ fits_iff

/-- Ranges go upwards, and no member of the sequence is nested more than `k` levels deep. -/
structure Pattern.Shallow (k : Nat) (e : Pattern) : Prop where
  ordered : e.wellOrdered = true
  deepest : e.extent.2 ≤ k

variable {limit count k n : Nat} {prev : Option Char} {g inner rest s t : List Char}
  {branches : List (List Char)} {e choice : Pattern}

/-! ## Nesting -/

namespace Pattern

theorem Shallow.depth_le (h : e.Shallow k) : e.depth ≤ k + 1 := by
  have deepest := h.deepest
  rw [depth]
  generalize e.extent = extent at deepest ⊢
  obtain ⟨n, d⟩ := extent
  simp only [extent.levels] at deepest ⊢
  split <;> omega

theorem shallow_nil : nil.Shallow k := ⟨rfl, Nat.zero_le k⟩

theorem Shallow.atom {a : Atom} (h : e.Shallow k) (ordered : a.wellOrdered = true)
    (shallow : a.depth ≤ k) : (atom a e).Shallow k := by
  refine ⟨?_, max_le shallow h.deepest⟩
  rw [wellOrdered, ordered, h.ordered]
  rfl

theorem Shallow.group (h : e.Shallow k) (ordered : choice.wellOrdered = true)
    (shallow : 2 + choice.depth ≤ k) : (group choice e).Shallow k := by
  refine ⟨?_, max_le shallow h.deepest⟩
  rw [wellOrdered, ordered, h.ordered]
  rfl

end Pattern

/-! ## Reading -/

namespace Reader
variable [Engine]

/-- What is read without errors is shallow, and no values were counted. -/
def Reads (limit : Nat) (k : Nat) (prev : Option Char) (g : List Char) : Prop :=
  ∀ count, ∃ e, readFrom limit prev g count = .ok (e, count) ∧ e.Shallow k

theorem Reads.onto {p : Option Char} {a : Atom} (h : Reads limit k p rest)
    (ordered : a.wellOrdered = true) (shallow : a.depth ≤ k)
    (construct : ∀ count, readFrom limit prev g count = onto a (readFrom limit p rest count)) :
    Reads limit k prev g := by
  intro count
  obtain ⟨e, he, hshallow⟩ := h count
  exact ⟨.atom a e, by rw [construct, he]; rfl, hshallow.atom ordered shallow⟩

theorem reads_nil : Reads limit k prev [] :=
  fun count => ⟨.nil, by rw [readFrom], Pattern.shallow_nil⟩

/-- Behind a text of ordinary characters reading goes on. -/
theorem Reads.behind {front : List Char} (literal : Literal front)
    (h : Reads limit k (lastOf prev front) rest) : Reads limit k prev (front ++ rest) := by
  induction front generalizing prev with
  | nil => exact h
  | cons c front ih =>
    obtain ⟨-, hfront⟩ := List.forall_mem_cons.mp literal
    rw [lastOf_cons] at h
    exact (ih hfront h).onto (a := .char c) rfl (Nat.zero_le k) fun _ =>
      readFrom_ordinary literal.plain

theorem reads_literal (literal : Literal g) : Reads limit k prev g := by
  rw [← List.append_nil g]
  exact .behind literal reads_nil

theorem reads_simple (simple : Simple prev g) : Reads limit 4 prev g := by
  induction simple with
  | nil => exact reads_nil
  | @ordinary _ c _ plain _ ih =>
    exact ih.onto (a := .char c) rfl (Nat.zero_le 4) fun _ => readFrom_ordinary plain
  | anyChar _ ih => exact ih.onto (a := .anyChar) rfl (by decide) fun _ => by rw [readFrom]; rfl
  | segment single _ ih =>
    exact ih.onto (a := .segment) rfl (by decide) fun _ => readFrom_segment single
  | directories n start _ ih =>
    refine ih.onto (a := .directories) rfl (by decide) fun _ => ?_
    rw [List.replicate_succ, List.replicate_succ]
    exact readFrom_directories (dropWhile_stars (by simp)) start
  | @anything _ g n all other _ ih =>
    refine ih.onto (a := .anything) rfl (by decide) fun count => ?_
    have run := dropWhile_stars (n := n) all
    rw [List.replicate_succ, List.replicate_succ, List.cons_append, List.cons_append,
      readFrom_anything (run.symm ▸ other), run]

/-- Alternatives are read if each of them is. -/
theorem exists_readAll {first : List Char} {others : List (List Char)}
    (h : ∀ b ∈ first :: others, Reads limit k none b) (count : Nat) :
    ∃ body, readAll limit first others count = .ok (body, count) ∧ body.wellOrdered = true ∧
      body.depth ≤ k + 1 := by
  induction others generalizing first with
  | nil =>
    obtain ⟨e, he, shallow⟩ := h first List.mem_cons_self count
    exact ⟨e, by rw [readAll, he], shallow.ordered, shallow.depth_le⟩
  | cons second others ih =>
    obtain ⟨left, hleft, shallow⟩ := h first List.mem_cons_self count
    obtain ⟨right, hright, ordered, depth⟩ := ih fun b hb => h b (List.mem_cons_of_mem first hb)
    refine ⟨.either left right, ?_, ?_, max_le shallow.depth_le depth⟩
    · rw [readAll, hleft]
      simp only [hright]
      rfl
    · rw [Pattern.wellOrdered, shallow.ordered, ordered]
      rfl

omit [Engine] in
theorem close?_choices (choices : Choices inner branches) :
    Braces.close? 0 (inner ++ '}' :: rest) = some (inner, rest) :=
  Braces.close?_eq_some_iff.mpr ⟨rfl, choices.balanced⟩

omit [Engine] in
theorem split_choices (choices : Choices inner branches) : Braces.split 0 inner = branches :=
  ((Braces.choices_iff_split choices.balanced).mp choices).1

theorem Reads.choices (choices : Choices inner branches)
    (h : ∀ b ∈ branches, Reads limit k none b) (behind : Reads limit (k + 3) (some '}') rest) :
    Reads limit (k + 3) prev ('{' :: (inner ++ '}' :: rest)) := by
  intro count
  have several := choices.several
  match branches with
  | first :: second :: others =>
    obtain ⟨body, hbody, ordered, depth⟩ := exists_readAll h count
    obtain ⟨e, he, shallow⟩ := behind count
    refine ⟨.group body e, ?_, shallow.group ordered (by omega)⟩
    rw [readFrom_choice (close?_choices choices) (parse?_choices choices) (split_choices choices),
      hbody]
    simp only [he]
    rfl

end Reader

/-! ## Matching -/

theorem denotes_choices (choices : Choices inner branches) :
    Denotes prev ('{' :: (inner ++ '}' :: rest)) s ↔
      Then (fun u => ∃ b ∈ branches, Denotes none b u) (Denotes (some '}') rest) s := by
  have hsplit := Reader.split_choices choices
  rw [denotes_choice (Reader.close?_choices choices) (parse?_choices choices)
    (hsplit ▸ choices.several), hsplit]

variable [Engine]

/-- What a glob matches is told by the language of the text that it is read from. -/
theorem isMatch_iff_of_read {g : Glob}
    (hread : Reader.readFrom limit none (body g.text.toList) 0 = .ok (g.pattern, n))
    (path : String) : g.isMatch path = true ↔
      g.candidate path ≠ [] ∧ Denotes none (body g.text.toList) (g.candidate path) := by
  rw [isMatch, Bool.and_eq_true, Bool.not_eq_true', List.isEmpty_eq_false_iff, Pattern.accepts_iff,
    Reader.readFrom_faithful limit none _ 0 _ n hread]

theorem isMatch_iff_candidate {text : String} {g : Glob} (compiled : compile text limit = .ok g)
    (path : String) : g.isMatch path = true ↔
      g.candidate path ≠ [] ∧ Denotes none (body text.toList) (g.candidate path) := by
  obtain ⟨rfl, n, hread⟩ := compile_ok compiled
  exact isMatch_iff_of_read hread path

/-- A text compiles to what is read of it, if ranges go upwards, nesting is not too deep and the
program is not too large. -/
theorem compile_eq_ok_iff {text : String} {g : Glob} : compile text limit = .ok g ↔
    g.text = text ∧ (∃ n, Reader.readFrom limit none (body text.toList) 0 = .ok (g.pattern, n)) ∧
      g.pattern.wellOrdered = true ∧ g.pattern.depth + 2 ≤ maxDepth ∧
      Engine.size g.pattern ≤ maxSize := by
  constructor
  · intro h
    obtain ⟨htext, hread⟩ := compile_ok h
    refine ⟨htext, hread, ?_⟩
    unfold compile at h
    split at h
    · cases h
    · cases h
    · cases h
    split at h
    · next bounded =>
      obtain rfl := Except.ok.inj h
      exact bounded
    · cases h
  · rintro ⟨rfl, ⟨n, hread⟩, bounded⟩
    rw [compile, Reader.read, hread]
    exact if_pos bounded

theorem fits_of_compile {text : String} {g : Glob} (h : compile text limit = .ok g) :
    Fits limit text := by
  obtain ⟨-, ⟨n, hread⟩, -, -, size⟩ := compile_eq_ok_iff.mp h
  intro e m again
  obtain ⟨rfl, -⟩ := Prod.mk.inj (Except.ok.inj (again.symm.trans hread))
  exact size

/-- What is read but takes too large a program is malformed. -/
theorem compile_of_not_fits {text : String} (h : ¬ Fits limit text) :
    compile text limit = .error (.malformed text) := by
  simp only [Fits, not_forall] at h
  obtain ⟨e, n, hread, large⟩ := h
  rw [compile, Reader.read, hread]
  exact if_neg fun bounded => large bounded.2.2

theorem exists_compile_iff {text : String} (h : Reader.Reads limit k none (body text.toList))
    (shallow : k ≤ 247) : (∃ g, compile text limit = .ok g) ↔ Fits limit text := by
  constructor
  · rintro ⟨g, compiled⟩
    exact fits_of_compile compiled
  · intro fits
    obtain ⟨e, he, hshallow⟩ := h 0
    have depth := hshallow.depth_le
    have nested : e.depth + 2 ≤ maxDepth := by
      unfold maxDepth
      omega
    exact ⟨⟨text, e⟩, compile_eq_ok_iff.mpr ⟨rfl, ⟨0, he⟩, hshallow.ordered, nested, fits e 0 he⟩⟩

theorem ordered_of_compile {text : String} {e : Glob} (h : compile text limit = .ok e) :
    e.pattern.wellOrdered = true :=
  (compile_eq_ok_iff.mp h).2.2.1

theorem accepts_iff_candidate {text : String} {g : Glob} (compiled : compile text limit = .ok g)
    (path : String) : Accepts limit text path ↔
      g.candidate path ≠ [] ∧ Denotes none (body text.toList) (g.candidate path) := by
  rw [← isMatch_iff_candidate compiled]
  constructor
  · rintro ⟨g', compiled', h⟩
    rwa [Except.ok.inj (compiled.symm.trans compiled')]
  · exact fun h => ⟨g, compiled, h⟩

omit [Engine] in
theorem candidate_of_separator {g : Glob} (h : '/' ∈ g.text.toList) (path : String) :
    g.candidate path = path.toList := by
  rw [candidate, if_neg]
  rw [isBasenameOnly_iff]
  exact not_not_intro h

/-- What compiles behind a leading separator is matched against the whole path. -/
theorem accepts_iff_of_compile {e : Glob}
    (compiled : compile (String.ofList ('/' :: g)) limit = .ok e) (path : String) :
    Accepts limit (String.ofList ('/' :: g)) path ↔
      path.toList ≠ [] ∧ Denotes none g path.toList := by
  have separator : '/' ∈ e.text.toList := by
    rw [(compile_ok compiled).1, String.toList_ofList]
    exact List.mem_cons_self
  rw [accepts_iff_candidate compiled, candidate_of_separator separator, String.toList_ofList]
  rfl

theorem exists_compile_anchored_iff (h : Reader.Reads limit k none g) (shallow : k ≤ 247) :
    (∃ e, compile (String.ofList ('/' :: g)) limit = .ok e) ↔
      Fits limit (String.ofList ('/' :: g)) := by
  have text : body (String.ofList ('/' :: g)).toList = g := by rw [String.toList_ofList]; rfl
  exact exists_compile_iff (text.symm ▸ h) shallow

/-- Behind a leading separator a text is matched against the whole path. -/
theorem accepts_anchored (h : Reader.Reads limit k none g) (shallow : k ≤ 247)
    (fits : Fits limit (String.ofList ('/' :: g))) (path : String) :
    Accepts limit (String.ofList ('/' :: g)) path ↔
      path.toList ≠ [] ∧ Denotes none g path.toList := by
  obtain ⟨e, compiled⟩ := (exists_compile_anchored_iff h shallow).mpr fits
  exact accepts_iff_of_compile compiled path

omit [Engine] in
theorem body_cons {c : Char} (h : c ≠ '/') : body (c :: g) = c :: g := by
  rw [body]
  rintro s ⟨⟩
  exact h rfl

omit [Engine] in
theorem body_of_no_separator (inside : '/' ∉ g) : body g = g := by
  cases g with
  | nil => rfl
  | cons c g => exact body_cons fun h => inside (h ▸ List.mem_cons_self)

theorem exists_compile_segment_iff (inside : '/' ∉ g) (h : Reader.Reads limit k none g)
    (shallow : k ≤ 247) :
    (∃ e, compile (String.ofList g) limit = .ok e) ↔ Fits limit (String.ofList g) := by
  refine exists_compile_iff ?_ shallow
  rwa [String.toList_ofList, body_of_no_separator inside]

/-- Without a separator a text is matched against the last segment of a path. -/
theorem accepts_segment (inside : '/' ∉ g) (path : String) : Accepts limit (String.ofList g) path ↔
    (∃ e, compile (String.ofList g) limit = .ok e) ∧
      basename path.toList ≠ [] ∧ Denotes none g (basename path.toList) := by
  have matched : ∀ {e}, compile (String.ofList g) limit = .ok e →
      (Accepts limit (String.ofList g) path ↔
        basename path.toList ≠ [] ∧ Denotes none g (basename path.toList)) := by
    intro e compiled
    have segment : e.candidate path = basename path.toList := by
      rw [candidate, (compile_ok compiled).1, if_pos]
      rwa [isBasenameOnly_iff, String.toList_ofList]
    rw [accepts_iff_candidate compiled, segment, String.toList_ofList, body_of_no_separator inside]
  constructor
  · rintro ⟨e, compiled, h⟩
    exact ⟨⟨e, compiled⟩, (matched compiled).mp ⟨e, compiled, h⟩⟩
  · rintro ⟨⟨e, compiled⟩, h⟩
    exact (matched compiled).mpr h

end EditorConfig.Glob
