import EditorConfig.Proofs.Glob.Quoting
/-!
# Patterns below a directory

Behind a text that ends in a separator a pattern text is read as at the beginning of a pattern. With
stars for whole directories in front it matches below every directory what it matches by itself,
and with a quoted directory in front it does so below that directory. Only the bounds on whole
patterns stand apart: the text in front can add one level of nesting, and its program has a size.
-/
namespace EditorConfig.Glob

/-- The text is read as `g`, and ranges of characters go upwards; whether `g` is nested too deeply
or takes too large a program is left open. -/
structure ReadsAs [Engine] (limit : Nat) (text : String) (g : Glob) : Prop where
  text_eq : g.text = text
  read : ∃ n, Reader.readFrom limit none (body text.toList) 0 = .ok (g.pattern, n)
  ordered : g.pattern.wellOrdered = true

variable {limit k : Nat} {P d text path : String} {rest s : List Char} {atoms : List Atom}
  {e : Pattern} {g g' : Glob}

/-! ## Reading, bounds aside -/

theorem compile_eq_ok_iff_readsAs [Engine] : compile text limit = .ok g ↔
    ReadsAs limit text g ∧ g.pattern.depth + 2 ≤ maxDepth ∧ Engine.size g.pattern ≤ maxSize := by
  rw [compile_eq_ok_iff]
  constructor
  · rintro ⟨htext, hread, ordered, bounded⟩
    exact ⟨⟨htext, hread, ordered⟩, bounded⟩
  · rintro ⟨h, bounded⟩
    exact ⟨h.text_eq, h.read, h.ordered, bounded⟩

/-- A text with a separator in it is matched against whole paths. -/
theorem ReadsAs.isMatch_iff [Engine] (h : ReadsAs limit text g) (separator : '/' ∈ text.toList) :
    g.isMatch path = true ↔ path ≠ "" ∧ Denotes none (body text.toList) path.toList := by
  obtain ⟨rfl, ⟨n, hread⟩, -⟩ := h
  rw [isMatch_iff_of_read hread, candidate_of_separator separator, ne_eq, String.toList_eq_nil_iff]

/-! ## Atoms in front -/

namespace Pattern

theorem deepest_le_depth (e : Pattern) : e.extent.2 ≤ e.depth := by
  rw [depth]
  generalize e.extent = extent
  obtain ⟨n, deepest⟩ := extent
  rw [extent.levels]
  split <;> omega

theorem Shallow.behind (h : e.Shallow k)
    (simple : ∀ a ∈ atoms, a.wellOrdered = true ∧ a.depth ≤ k) : (e.behind atoms).Shallow k := by
  induction atoms with
  | nil => exact h
  | cons a atoms ih =>
    obtain ⟨⟨ordered, shallow⟩, others⟩ := List.forall_mem_cons.mp simple
    exact (ih others).atom ordered shallow

end Pattern

theorem atSegmentStart_separator : AtSegmentStart (some '/') ↔ AtSegmentStart none :=
  iff_of_true (.inr rfl) (.inl rfl)

theorem body_anchored (P : String) : body ("/" ++ P).toList = P.toList := by
  rw [String.toList_append]
  rfl

theorem joined_ne_empty (u s : String) : u ++ "/" ++ s ≠ "" := by
  intro empty
  simpa using congrArg String.toList empty

/-- Behind atoms and a separator a text is read as it is behind a leading separator. -/
theorem ReadsAs.behind [Engine] (h : ReadsAs limit ("/" ++ P) g)
    (front : Steps none (body text.toList) atoms (some '/') P.toList)
    (simple : ∀ a ∈ atoms, a.wellOrdered = true ∧ a.depth ≤ 4) :
    ReadsAs limit text ⟨text, g.pattern.behind atoms⟩ ∧ (g.pattern.depth + 3 ≤ maxDepth →
      Fits limit text →
      compile text limit = .ok ⟨text, g.pattern.behind atoms⟩) := by
  obtain ⟨-, ⟨n, hread⟩, ordered⟩ := h
  rw [body_anchored, ← Reader.readFrom_congr atSegmentStart_separator] at hread
  have shallow : g.pattern.Shallow (max 4 g.pattern.depth) :=
    ⟨ordered, g.pattern.deepest_le_depth.trans (le_max_right _ _)⟩
  have whole : (g.pattern.behind atoms).Shallow (max 4 g.pattern.depth) :=
    shallow.behind fun a member =>
      ⟨(simple a member).1, (simple a member).2.trans (le_max_left _ _)⟩
  have reads : ReadsAs limit text ⟨text, g.pattern.behind atoms⟩ := by
    refine ⟨rfl, ⟨n, ?_⟩, whole.ordered⟩
    rw [Reader.readFrom_steps front, hread]
    rfl
  obtain ⟨n, found⟩ := reads.read
  refine ⟨reads, fun room fits => compile_eq_ok_iff_readsAs.mpr ⟨reads, ?_, fits _ n found⟩⟩
  have depth := whole.depth_le
  simp only [maxDepth] at room ⊢
  omega

/-! ## Below every directory -/

theorem body_anywhere (P : String) :
    body ("**/" ++ P).toList = '*' :: '*' :: '/' :: P.toList := by
  rw [String.toList_append]
  rfl

theorem steps_anywhere : Steps none ('*' :: '*' :: '/' :: rest) [.directories] (some '/') rest :=
  .cons (.directories rfl (.inl rfl)) .refl

/-- Behind stars for whole directories a text is matched from its beginning or from behind one of
its separators. -/
theorem denotes_anywhere : Denotes none ('*' :: '*' :: '/' :: rest) s ↔
    Denotes none rest s ∨ ∃ u v, s = u ++ '/' :: v ∧ Denotes none rest v := by
  rw [denotes_directories rfl (.inl rfl)]
  constructor
  · rintro ⟨u, v, rfl, rfl | ⟨u, rfl⟩, h⟩
    · exact .inl (h.congr atSegmentStart_separator)
    · exact .inr ⟨u, v, by simp, h.congr atSegmentStart_separator⟩
  · rintro (h | ⟨u, v, rfl, h⟩)
    · exact ⟨[], s, rfl, .inl rfl, h.congr atSegmentStart_separator.symm⟩
    · exact ⟨u ++ ['/'], v, by simp, .inr ⟨u, rfl⟩, h.congr atSegmentStart_separator.symm⟩

theorem isMatch_anywhere [Engine] (h : ReadsAs limit ("/" ++ P) g)
    (h' : ReadsAs limit ("**/" ++ P) g') (final : ∀ u, path ≠ u ++ "/") : g'.isMatch path = true ↔
      g.isMatch path = true ∨ ∃ u s, path = u ++ "/" ++ s ∧ g.isMatch s = true := by
  simp only [h.isMatch_iff (by simp), h'.isMatch_iff (by simp), body_anchored, body_anywhere,
    denotes_anywhere]
  constructor
  · rintro ⟨nonempty, whole | ⟨u, v, written, behind⟩⟩
    · exact .inl ⟨nonempty, whole⟩
    · have split : path = String.ofList u ++ "/" ++ String.ofList v := by
        rw [← String.toList_inj]
        simp [written]
      refine .inr ⟨_, _, split, fun empty => ?_, by rwa [String.toList_ofList]⟩
      rw [empty, String.append_empty] at split
      exact final _ split
  · rintro (⟨nonempty, whole⟩ | ⟨u, s, rfl, -, behind⟩)
    · exact ⟨nonempty, .inl whole⟩
    · exact ⟨joined_ne_empty u s, .inr ⟨u.toList, s.toList, by simp, behind⟩⟩

/-! ## Below one directory -/

theorem body_below (d P : String) :
    body (quotedText d ++ "/" ++ P).toList = quoted d.toList ++ '/' :: P.toList := by
  simp [quotedText, body]

theorem steps_below (d rest : List Char) :
    Steps none (quoted d ++ '/' :: rest) ((d ++ ['/']).map .char) (some '/') rest := by
  rw [List.map_append]
  exact (steps_quoted none d _).trans (.cons (.ordinary (by decide)) .refl)

theorem denotes_below {d : List Char} :
    Denotes none (quoted d ++ '/' :: rest) (d ++ '/' :: s) ↔ Denotes none rest s := by
  rw [denotes_chars (steps_below d rest)]
  constructor
  · rintro ⟨u, written, h⟩
    rw [List.append_assoc] at written
    obtain rfl : s = u := by simpa using written
    exact h.congr atSegmentStart_separator
  · exact fun h => ⟨s, by simp, h.congr atSegmentStart_separator.symm⟩

theorem isMatch_below [Engine] (h : ReadsAs limit ("/" ++ P) g)
    (h' : ReadsAs limit (quotedText d ++ "/" ++ P) g') (nonempty : path ≠ "") :
    g'.isMatch (d ++ "/" ++ path) = true ↔ g.isMatch path = true := by
  have written : (d ++ "/" ++ path).toList = d.toList ++ '/' :: path.toList := by simp
  rw [h.isMatch_iff (by simp), h'.isMatch_iff (by simp), body_anchored, body_below, written,
    denotes_below]
  exact and_congr_left' (iff_of_true (joined_ne_empty d path) nonempty)

/-- What compiles behind a leading separator, the bounds on whole patterns aside, does so below a
directory. Behind stars for whole directories it matches what it matches of the path or behind a
separator of the path; behind a quoted directory it matches below this directory what it matches by
itself. One spare level of nesting is enough for both, and a program that is not too large. -/
theorem patterns_relocate [Engine] (h : ReadsAs limit ("/" ++ P) g) :
    (∃ g', ReadsAs limit ("**/" ++ P) g' ∧
      (g.pattern.depth + 3 ≤ maxDepth → Fits limit ("**/" ++ P) →
        compile ("**/" ++ P) limit = .ok g') ∧
      ∀ path, (∀ u, path ≠ u ++ "/") → (g'.isMatch path = true ↔
        g.isMatch path = true ∨ ∃ u s, path = u ++ "/" ++ s ∧ g.isMatch s = true)) ∧
    ∀ d, ∃ g', ReadsAs limit (quotedText d ++ "/" ++ P) g' ∧
      (g.pattern.depth + 3 ≤ maxDepth → Fits limit (quotedText d ++ "/" ++ P) →
        compile (quotedText d ++ "/" ++ P) limit = .ok g') ∧
      ∀ path, path ≠ "" → (g'.isMatch (d ++ "/" ++ path) = true ↔ g.isMatch path = true) := by
  refine ⟨?_, fun d => ?_⟩
  · have front : Steps none (body ("**/" ++ P).toList) [.directories] (some '/') P.toList := by
      rw [body_anywhere]
      exact steps_anywhere
    obtain ⟨reads, compiles⟩ := h.behind front (List.forall_mem_singleton.mpr ⟨rfl, le_rfl⟩)
    exact ⟨_, reads, compiles, fun path final => isMatch_anywhere h reads final⟩
  · have front : Steps none (body (quotedText d ++ "/" ++ P).toList)
        ((d.toList ++ ['/']).map .char) (some '/') P.toList := by
      rw [body_below]
      exact steps_below d.toList P.toList
    have simple : ∀ a ∈ (d.toList ++ ['/']).map Atom.char, a.wellOrdered = true ∧ a.depth ≤ 4 :=
      List.forall_mem_map.mpr fun _ _ => ⟨rfl, Nat.zero_le 4⟩
    obtain ⟨reads, compiles⟩ := h.behind front simple
    exact ⟨_, reads, compiles, fun path nonempty => isMatch_below h reads nonempty⟩

theorem patterns_relocate_nested : ∃ g, ReadsAs 8 "/*/[ab]\x7b1,x\x7d" g ∧
    (∃ g', compile "**/*/[ab]\x7b1,x\x7d" 8 = .ok g' ∧ g'.isMatch "lib/src/ax" = true) ∧
    ∃ g', compile "/\\s\\*/*/[ab]\x7b1,x\x7d" 8 = .ok g' ∧ g'.isMatch "s*/lib/b1" = true := by
  have compiled : compile "/*/[ab]\x7b1,x\x7d" 8 = .ok ⟨"/*/[ab]\x7b1,x\x7d",
      .atom .segment (.atom (.char '/') (.atom (.oneOf ⟨false, [('a', 'a'), ('b', 'b')]⟩)
        (.group (.either (.atom (.char '1') .nil) (.atom (.char 'x') .nil)) .nil)))⟩ := by
    decide +kernel
  have reads := (compile_eq_ok_iff_readsAs.mp compiled).1
  obtain ⟨⟨anywhere, -, compiles, matched⟩, below⟩ :=
    patterns_relocate (P := "*/[ab]\x7b1,x\x7d") reads
  obtain ⟨inside, -, compilesInside, matchedInside⟩ := below "s*"
  have final : ∀ u, "lib/src/ax" ≠ u ++ "/" := by
    intro u h
    simpa using congrArg (fun path => path.toList.getLast?) h
  refine ⟨_, reads,
    ⟨anywhere, compiles (by decide) (by decide +kernel), (matched "lib/src/ax" final).mpr ?_⟩,
    inside, compilesInside (by decide) (by decide +kernel),
    (matchedInside "lib/b1" (by decide)).mpr ?_⟩
  · exact .inr ⟨"lib", "src/ax", rfl, by decide +kernel⟩
  · decide +kernel

end EditorConfig.Glob
