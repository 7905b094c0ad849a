import EditorConfig.Proofs.Path
import EditorConfig.Settings.Discovery
import Mathlib.Data.List.DropRight
/-!
# Paths without their last components

Dropping the last component of a path leaves a path with the components before it, whatever stands
at the end of the text and counts for nothing. A path has no more components than characters, so
dropping one again and again comes to an end, and `Path.climb` goes through exactly the paths on the
way.
-/
namespace EditorConfig

namespace Path

/-- The paths that are left when the last component is dropped again and again, from the path
itself to the one that has none to drop. -/
inductive Shortens : Path → List Path → Prop
  | last {p : Path} (bare : p.parent? = none) : Shortens p [p]
  | drop {p q : Path} {shorter : List Path} (parent : p.parent? = some q)
      (rest : Shortens q shorter) : Shortens p (p :: shorter)

variable {p q : Path} {pieces : List (List Char)}

/-! ## Pieces that stand for nothing -/

theorem component?_cases (piece : List Char) :
    component? piece = none ∨ component? piece = some .parent ∨
      ∃ name, component? piece = some (.name name) := by
  unfold component?
  split
  · exact .inl rfl
  · exact .inl rfl
  · exact .inr (.inl rfl)
  · exact .inr (.inr ⟨_, rfl⟩)

theorem filterMap_dropTrivialEnd (pieces : List (List Char)) :
    (dropTrivialEnd pieces).filterMap component? = pieces.filterMap component? := by
  let trivial : List Char → Bool := fun s => (component? s).isNone
  have cut : dropTrivialEnd pieces = pieces.rdropWhile trivial := rfl
  have whole : pieces.rdropWhile trivial ++ pieces.rtakeWhile trivial = pieces :=
    List.rdropWhile_append_rtakeWhile
  have dropped : (pieces.rtakeWhile trivial).filterMap component? = [] := by
    rw [List.filterMap_eq_nil_iff]
    intro piece hpiece
    exact Option.isNone_iff_eq_none.mp (List.mem_rtakeWhile_imp (p := trivial) hpiece)
  rw [cut]
  conv => rhs; rw [← whole, List.filterMap_append, dropped, List.append_nil]

theorem dropTrivialEnd_prefix (pieces : List (List Char)) : dropTrivialEnd pieces <+: pieces :=
  List.rdropWhile_prefix _ pieces

/-- The last piece that is kept stands for something. -/
theorem component?_of_dropTrivialEnd {front : List (List Char)} {last : List Char}
    (h : dropTrivialEnd pieces = front ++ [last]) : ∃ c, component? last = some c := by
  have named := List.rdropWhile_last_not (fun s => (component? s).isNone) pieces
    (fun he => by simp [show dropTrivialEnd pieces = [] from he] at h)
  have whole : (pieces.rdropWhile fun s => (component? s).isNone) = front ++ [last] := h
  simp only [whole, List.getLast_concat] at named
  exact Option.ne_none_iff_exists'.mp fun he => named (by simp [he])

/-! ## Beginnings -/

/-- Pieces that can stand behind a beginning: none of them holds a separator, and with nothing in
front the first is neither empty nor a dot. -/
structure Fits (anchor : Anchor) (pieces : List (List Char)) : Prop where
  inside : ∀ piece ∈ pieces, '/' ∉ piece
  first : anchor = .nothing → pieces.head? ≠ some [] ∧ pieces.head? ≠ some ['.']

theorem Fits.of_prefix {anchor : Anchor} {kept : List (List Char)} (h : Fits anchor pieces)
    (front : kept <+: pieces) : Fits anchor kept := by
  refine ⟨fun piece hpiece => h.inside piece (front.subset hpiece), fun nothing => ?_⟩
  obtain ⟨rest, rfl⟩ := front
  cases kept with
  | nil => exact ⟨nofun, nofun⟩
  | cons piece kept => exact h.first nothing

/-- The pieces of a path fit its beginning, save for the one empty piece of the empty path. -/
theorem fits_anatomy (p : Path) : Fits p.anatomy.1 p.anatomy.2 ∨ p.anatomy = (.nothing, [[]]) := by
  have inside : ∀ piece ∈ p.anatomy.2, '/' ∉ piece := fun piece => mem_pieces
  unfold anatomy at inside ⊢
  split
  · next s hs => exact .inl ⟨by simpa [hs] using inside, nofun⟩
  · next relative =>
    split
    · next pieces hp => exact .inl ⟨by simpa [hp] using inside, nofun⟩
    · next dotless =>
      obtain ⟨first, others, hfirst⟩ :=
        List.exists_cons_of_ne_nil (List.splitOn_ne_nil '/' p.text.toList)
      have text : ['/'].intercalate (first :: others) = p.text.toList :=
        hfirst ▸ List.intercalate_splitOn '/'
      by_cases empty : first = []
      · subst empty
        cases others with
        | nil => exact .inr (by rw [hfirst])
        | cons second others =>
          rw [List.intercalate_cons_cons] at text
          exact (relative _ text.symm).elim
      · refine .inl ⟨by simpa using inside, fun _ => ?_⟩
        rw [hfirst]
        refine ⟨fun he => empty (Option.some.inj he), fun he => ?_⟩
        exact dotless others (by rw [hfirst, Option.some.inj he])

theorem anatomy_of_relative (h : ∀ s, p.text.toList ≠ '/' :: s) :
    p.anatomy = match p.text.toList.splitOn '/' with
      | ['.'] :: pieces => (.current, pieces)
      | pieces => (.nothing, pieces) := by
  unfold anatomy
  split
  · next s hs => exact (h s hs).elim
  · rfl

/-- A text whose first piece begins with a character begins with that character. -/
theorem intercalate_ne_separator {c : Char} {first : List Char} {others : List (List Char)}
    (inside : c ≠ '/') (s : List Char) :
    ['/'].intercalate ((c :: first) :: others) ≠ '/' :: s := by
  intro hs
  have head : (['/'].intercalate ((c :: first) :: others)).head? = some c :=
    (Text.head?_intercalate inside).mpr rfl
  rw [hs] at head
  exact inside (Option.some.inj head).symm

theorem anatomy_assemble_root (inside : ∀ piece ∈ pieces, '/' ∉ piece) (named : pieces ≠ []) :
    (assemble .root pieces).anatomy = (.root, pieces) := by
  have cut : (['/'].intercalate pieces).splitOn '/' = pieces :=
    List.splitOn_intercalate '/' inside named
  simp [assemble, anatomy, cut]

theorem anatomy_assemble_current (inside : ∀ piece ∈ pieces, '/' ∉ piece) :
    (assemble .current pieces).anatomy = (.current, pieces) := by
  have text : (assemble .current pieces).text.toList = ['/'].intercalate (['.'] :: pieces) :=
    String.toList_ofList
  have cut : (['/'].intercalate (['.'] :: pieces)).splitOn '/' = ['.'] :: pieces :=
    List.splitOn_intercalate '/' (List.forall_mem_cons.mpr ⟨by decide, inside⟩) (by simp)
  rw [anatomy_of_relative fun s => text ▸ intercalate_ne_separator (by decide) s, text, cut]
  rfl

theorem anatomy_assemble_nothing (h : Fits .nothing pieces) (named : pieces ≠ []) :
    (assemble .nothing pieces).anatomy = (.nothing, pieces) := by
  have text : (assemble .nothing pieces).text.toList = ['/'].intercalate pieces :=
    String.toList_ofList
  have cut : (['/'].intercalate pieces).splitOn '/' = pieces :=
    List.splitOn_intercalate '/' h.inside named
  obtain ⟨first, others, rfl⟩ := List.exists_cons_of_ne_nil named
  obtain ⟨nonempty, dotless⟩ := h.first rfl
  obtain ⟨c, rest, rfl⟩ := List.exists_cons_of_ne_nil fun he => nonempty (congrArg some he)
  have inside : c ≠ '/' := fun he => h.inside _ List.mem_cons_self (by simp [he])
  rw [anatomy_of_relative fun s => text ▸ intercalate_ne_separator inside s, text, cut]
  split
  · next he => exact absurd (congrArg List.head? he) dotless
  · rfl

/-- What is assembled from a beginning and pieces that fit it has these components. -/
theorem components_assemble {anchor : Anchor} (h : Fits anchor pieces) :
    (assemble anchor pieces).components = anchor.components ++ pieces.filterMap component? := by
  by_cases named : pieces = []
  · subst named
    cases anchor <;> rfl
  · cases anchor with
    | root => rw [components, anatomy_assemble_root h.inside named]
    | current => rw [components, anatomy_assemble_current h.inside]
    | nothing => rw [components, anatomy_assemble_nothing h named]

/-! ## Dropping the last component -/

/-- The last component is a dot that stands alone, or it is the last piece that stands for
something. -/
theorem parent?_cases (h : p.parent? = some q) :
    (p.anatomy.1 = .current ∧ dropTrivialEnd p.anatomy.2 = [] ∧ q = ⟨""⟩) ∨
      ∃ front last, dropTrivialEnd p.anatomy.2 = front ++ [last] ∧
        q = assemble p.anatomy.1 (dropTrivialEnd front) := by
  unfold parent? at h
  simp only at h
  split at h
  · next none =>
    split at h
    · next dot => exact .inl ⟨dot, none, (Option.some.inj h).symm⟩
    · cases h
  · next named =>
    have whole := List.dropLast_append_getLast (l := dropTrivialEnd p.anatomy.2) named
    exact .inr ⟨_, _, whole.symm, (Option.some.inj h).symm⟩

/-- A path without its last component is written with fewer pieces. -/
theorem exists_pieces_of_parent? {front : List (List Char)} {last : List Char}
    (kept : dropTrivialEnd pieces = front ++ [last]) :
    ∃ rest, pieces = dropTrivialEnd front ++ rest ∧ rest ≠ [] := by
  obtain ⟨inner, hinner⟩ := dropTrivialEnd_prefix front
  obtain ⟨outer, houter⟩ := dropTrivialEnd_prefix pieces
  refine ⟨inner ++ last :: outer, ?_, by simp⟩
  rw [← List.append_assoc, hinner, ← houter, kept]
  simp

/-- A path without its last component has the components before it. -/
theorem components_of_parent? (h : p.parent? = some q) :
    ∃ c, p.components = q.components ++ [c] := by
  have kept := filterMap_dropTrivialEnd p.anatomy.2
  rcases parent?_cases h with ⟨dot, none, rfl⟩ | ⟨front, last, hlast, rfl⟩
  · rw [none] at kept
    exact ⟨.current, by rw [components, ← kept, dot]; rfl⟩
  · obtain ⟨c, stands⟩ := component?_of_dropTrivialEnd hlast
    obtain ⟨rest, hrest, -⟩ := exists_pieces_of_parent? hlast
    have fits : Fits p.anatomy.1 p.anatomy.2 := by
      refine (fits_anatomy p).resolve_right fun empty => ?_
      rw [empty] at hlast
      exact absurd (congrArg List.length hlast) (by simp [dropTrivialEnd, component?])
    refine ⟨c, ?_⟩
    rw [components_assemble (fits.of_prefix ⟨rest, hrest.symm⟩), filterMap_dropTrivialEnd,
      components, ← kept, hlast, List.filterMap_append, List.append_assoc]
    simp [stands]

/-- An absolute path ends in a name or in two dots if its last component can be dropped, and stays
absolute. -/
theorem parent?_of_isAbsolute (absolute : p.isAbsolute = true) (h : p.parent? = some q) :
    q.isAbsolute = true ∧ (p.components = q.components ++ [.parent] ∨
      ∃ s, p.components = q.components ++ [.name s]) := by
  obtain ⟨s, anatomy, -⟩ := anatomy_of_isAbsolute absolute
  have stays : q.isAbsolute = true := by
    rcases parent?_cases h with ⟨dot, -⟩ | ⟨front, last, -, rfl⟩
    · rw [anatomy] at dot
      cases dot
    · rw [anatomy]
      simp [isAbsolute, assemble]
  refine ⟨stays, ?_⟩
  obtain ⟨c, hc⟩ := components_of_parent? h
  obtain ⟨cs, hcs⟩ := components_of_isAbsolute stays
  have behind : cs ++ [c] = (s.splitOn '/').filterMap component? := by
    have whole : p.components = .root :: (s.splitOn '/').filterMap component? := by
      rw [components, anatomy]
      rfl
    rw [hc, hcs] at whole
    exact List.tail_eq_of_cons_eq whole
  have inside : c ∈ (s.splitOn '/').filterMap component? := by simp [← behind]
  obtain ⟨piece, -, stands⟩ := List.mem_filterMap.mp inside
  rcases component?_cases piece with none | dots | ⟨name, named⟩
  · rw [none] at stands
    cases stands
  · obtain rfl := Option.some.inj (dots.symm.trans stands)
    exact .inl hc
  · obtain rfl := Option.some.inj (named.symm.trans stands)
    exact .inr ⟨name, hc⟩

/-- Only a path of no components, or of the root alone, has none to drop. -/
theorem components_of_parent?_eq_none (h : p.parent? = none) :
    p.components = [] ∨ p.components = [.root] := by
  have kept := filterMap_dropTrivialEnd p.anatomy.2
  unfold parent? at h
  simp only at h
  split at h
  · next none =>
    rw [none] at kept
    rw [components, ← kept]
    cases anchor : p.anatomy.1 with
    | root => exact .inr rfl
    | current => simp [anchor] at h
    | nothing => exact .inl rfl
  · cases h

/-! ## Dropping all components -/

theorem length_filterMap_splitOn (s : List Char) :
    ((s.splitOn '/').filterMap component?).length ≤ s.length := by
  induction s with
  | nil => simp [component?]
  | cons c s ih =>
    rw [List.splitOn_cons_eq_if_modifyHead]
    split
    · exact Nat.le_succ_of_le ih
    · obtain ⟨first, others, hs⟩ := List.exists_cons_of_ne_nil (List.splitOn_ne_nil '/' s)
      rw [hs, List.filterMap_cons] at ih
      have others : (others.filterMap component?).length ≤ s.length := by
        split at ih
        · exact ih
        · exact Nat.le_of_succ_le ih
      rw [hs, List.modifyHead_cons, List.filterMap_cons]
      split
      · exact Nat.le_succ_of_le others
      · exact Nat.succ_le_succ others

/-- Each component takes up a character. -/
theorem length_components_le (p : Path) : p.components.length ≤ p.text.length := by
  rw [← String.length_toList, components, List.length_append]
  unfold anatomy
  split
  · next s hs =>
    have := length_filterMap_splitOn s
    simp only [hs, Anchor.components, List.length_cons, List.length_nil]
    omega
  · next relative =>
    split
    · next pieces hp =>
      -- The dot in front takes up a character as well.
      have text : ['/'].intercalate (['.'] :: pieces) = p.text.toList :=
        hp ▸ List.intercalate_splitOn '/'
      obtain ⟨rest, hrest, -⟩ := Text.exists_behind_first '/' ['.'] pieces
      have behind : p.text.toList = '.' :: rest := text.symm.trans hrest
      obtain ⟨first, others, hfirst⟩ := List.exists_cons_of_ne_nil (List.splitOn_ne_nil '/' rest)
      rw [behind, List.splitOn_cons_eq_if_modifyHead, if_neg (by decide), hfirst,
        List.modifyHead_cons] at hp
      obtain ⟨empty, rfl⟩ := List.cons.inj hp
      obtain rfl : first = [] := (List.cons.inj empty).2
      have := length_filterMap_splitOn rest
      rw [hfirst, List.filterMap_cons_none rfl] at this
      rw [behind]
      simp only [Anchor.components, List.length_cons, List.length_nil]
      omega
    · have := length_filterMap_splitOn p.text.toList
      simpa [Anchor.components] using this

theorem shortens_outwards {steps : Nat} (enough : p.components.length < steps) :
    Shortens p (outwards steps p) := by
  induction steps generalizing p with
  | zero => cases enough
  | succ steps ih =>
    rw [outwards]
    cases parent : p.parent? with
    | none => exact .last parent
    | some q =>
      obtain ⟨c, hc⟩ := components_of_parent? parent
      rw [hc, List.length_append, List.length_singleton] at enough
      exact .drop parent (ih (Nat.lt_of_succ_lt_succ enough))

/-- The paths on the way are finitely many, and these are the ones that are gone through. -/
theorem shortens_climb (p : Path) : Shortens p p.climb :=
  shortens_outwards (Nat.lt_succ_of_le p.length_components_le)

theorem Shortens.unique {paths paths' : List Path} (h : Shortens p paths)
    (h' : Shortens p paths') : paths' = paths := by
  induction h generalizing paths' with
  | last bare =>
    cases h' with
    | last => rfl
    | drop parent => rw [bare] at parent; cases parent
  | drop parent _ ih =>
    cases h' with
    | last bare => rw [bare] at parent; cases parent
    | drop parent' rest =>
      obtain rfl := Option.some.inj (parent.symm.trans parent')
      rw [ih rest]

end Path

namespace Location
open EditorConfig.Path (IsName Shortens)

theorem parent?_path {name : String} {l : Location} (h : ∀ s ∈ name :: l, IsName s) :
    (path (name :: l)).parent? = some l.path := by
  rw [List.forall_mem_cons] at h
  have directory := directory_join h.2 h.1
  rw [join_path h.2 h.1, Path.directory] at directory
  cases parent : (path (name :: l)).parent? with
  | some q => simpa [parent] using directory
  | none =>
    have written := congrArg (fun q : Path => q.text.toList) directory
    rw [parent] at written
    simp [toList_path] at written

/-- The path of a location is shortened to the paths of the directories that hold it. -/
theorem shortens_path {l : Location} (h : ∀ s ∈ l, IsName s) :
    Shortens l.path (l.path :: l.ancestors.map path) := by
  induction l with
  | nil => exact .last rfl
  | cons name l ih => exact .drop (parent?_path h) (ih (List.forall_mem_cons.mp h).2)

theorem tails_eq (l : Location) : l.tails = l :: l.ancestors := by
  induction l with
  | nil => rfl
  | cons name l ih => rw [List.tails, ih, ancestors]

theorem climb_path {l : Location} (h : ∀ s ∈ l, IsName s) :
    l.path.climb = l.tails.map path := by
  rw [tails_eq, List.map_cons]
  exact (shortens_path h).unique l.path.shortens_climb

end Location

end EditorConfig
