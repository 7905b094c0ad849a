import EditorConfig.Proofs.Path.Joins
/-!
# Places below a directory

From a directory that holds it, a place is seen as the names that lead there, with separators
between them, and joining these to the directory leads back to the place. Seen from further out it
is the same text with the names of the directories in between in front.
-/
namespace EditorConfig.Location
open EditorConfig.Path (IsName)

/-- How a place is seen from a directory: as plain names, the last of them its own. -/
structure SeenAs (l : Location) (dir : Path) (relative : String) : Prop where
  seen : l.relativeTo? dir = some relative
  nonempty : relative ≠ ""
  plain : ∃ names, relative = "/".intercalate names ∧ (∀ s ∈ names, IsName s) ∧
    names.getLast? = l.head?
  /-- Going there from the directory leads to the place. -/
  back : dir.join relative = l.path

/-- A place is seen from `outer` through `inner`: what is seen from `inner` stands behind a
separator in what is seen from `outer`, and in front of that is the way to `inner`. -/
def SeenThrough (l : Location) (outer inner : Path) : Prop :=
  ∃ front relative, front ≠ "" ∧ l.SeenAs inner relative ∧
    l.SeenAs outer (front ++ "/" ++ relative) ∧ outer.join front = inner

variable {l near far dir names : Location}

/-! ## Joined names -/

theorem joined_eq (names : List String) : joined names = "/".intercalate names := by
  rw [← String.toList_inj, String.toList_intercalate]
  simp [joined, Path.assemble]

theorem joined_append {front back : List String} (hfront : front ≠ []) (hback : back ≠ []) :
    joined (front ++ back) = joined front ++ "/" ++ joined back := by
  simp only [joined_eq]
  exact String.intercalate_append_of_ne_nil hfront hback

theorem joined_ne_empty {names : List String} (h : ∀ s ∈ names, IsName s) (named : names ≠ []) :
    joined names ≠ "" := by
  obtain ⟨name, others, rfl⟩ := List.exists_cons_of_ne_nil named
  cases others with
  | nil => simpa [joined_eq] using (h name List.mem_cons_self).nonempty
  | cons next others => simp [Path.joined_cons]

theorem foldl_join_path {names : List String} (h : ∀ s ∈ names, IsName s)
    (hdir : ∀ s ∈ dir, IsName s) :
    names.foldl Path.join dir.path = path (names.reverse ++ dir) := by
  induction names generalizing dir with
  | nil => rfl
  | cons name names ih =>
    obtain ⟨hname, others⟩ := List.forall_mem_cons.mp h
    rw [List.foldl_cons, join_path hdir hname, ih others (List.forall_mem_cons.mpr ⟨hname, hdir⟩)]
    simp

/-! ## Seeing -/

/-- A place is seen from a directory above it by the names in between. -/
theorem seenAs_append (h : ∀ s ∈ names ++ dir, IsName s) (named : names ≠ []) :
    (names ++ dir).SeenAs dir.path (joined names.reverse) := by
  obtain ⟨inner, outer⟩ := List.forall_mem_append.mp h
  have plain : ∀ s ∈ names.reverse, IsName s := fun s hs => inner s (List.mem_reverse.mp hs)
  have first : names.reverse.getLast? = (names ++ dir).head? := by
    rw [List.getLast?_reverse, List.head?_append_of_ne_nil _ named]
  have components : (names ++ dir).components = dir.path.components ++ names.reverse.map .name := by
    rw [components_path outer]
    simp [Location.components]
  refine ⟨relativeTo?_eq_some_iff.mpr ⟨_, components, rfl⟩,
    joined_ne_empty plain (by simpa using named), ⟨_, joined_eq _, plain, first⟩, ?_⟩
  -- Joining the names at once is joining them one by one.
  have walked := foldl_join_path plain outer
  obtain ⟨name, others, split⟩ := List.exists_cons_of_ne_nil (List.reverse_ne_nil_iff.mpr named)
  rw [split] at plain walked ⊢
  rw [← Path.foldl_join _ plain, walked, ← split, List.reverse_reverse]

theorem exists_seenAs (h : ∀ s ∈ l, IsName s) (hdir : dir ∈ l.ancestors) :
    ∃ relative, l.SeenAs dir.path relative := by
  obtain ⟨names, named, rfl⟩ := mem_ancestors_iff.mp hdir
  exact ⟨_, seenAs_append h named⟩

/-- From further out a place is seen through the directories in between. -/
theorem seenThrough_of_mem_ancestors (h : ∀ s ∈ l, IsName s) (hnear : near ∈ l.ancestors)
    (hfar : far ∈ near.ancestors) : l.SeenThrough far.path near.path := by
  obtain ⟨names, named, rfl⟩ := mem_ancestors_iff.mp hnear
  obtain ⟨between, further, rfl⟩ := mem_ancestors_iff.mp hfar
  have way := seenAs_append (List.forall_mem_append.mp h).2 further
  have whole : SeenAs (names ++ (between ++ far)) far.path
      (joined between.reverse ++ "/" ++ joined names.reverse) := by
    rw [← joined_append (by simpa using further) (by simpa using named), ← List.reverse_append,
      ← List.append_assoc]
    exact seenAs_append (by simpa using h) (by simp [named])
  exact ⟨_, _, way.nonempty, seenAs_append h named, whole, way.back⟩

end EditorConfig.Location
