import EditorConfig.Proofs.Path
/-!
# Names behind a path

A name is joined to a path with a separator in front of it, unless the path ends in one or is empty.
Several names can be joined one by one or all at once, and different names make different paths.
-/
namespace EditorConfig

namespace Path
variable {p : Path} {a b name : String} {names : List String}

theorem join_relative (p : Path) (relative : isAbsolute ⟨a⟩ = false) : p.join a =
    ⟨(if p.text.toList.getLast?.all (· == '/') then p.text else p.text ++ "/") ++ a⟩ := by
  rw [join, if_neg (by simp [relative])]
  split <;> rfl

theorem join_injective (ha : isAbsolute ⟨a⟩ = false) (hb : isAbsolute ⟨b⟩ = false)
    (same : p.join a = p.join b) : a = b := by
  rw [p.join_relative ha, p.join_relative hb] at same
  exact (String.append_right_inj _).mp (Path.mk.inj same)

/-- A name and what stands behind it can be joined at once. -/
theorem join_join (p : Path) (ha : IsName a) (hb : isAbsolute ⟨b⟩ = false) :
    (p.join a).join b = p.join (a ++ "/" ++ b) := by
  have relative : isAbsolute ⟨a ++ "/" ++ b⟩ = false := by
    rw [String.append_assoc]
    exact ha.relative_append _
  rw [p.join_relative ha.relative, p.join_relative relative]
  generalize (if p.text.toList.getLast?.all (· == '/') then p.text else p.text ++ "/") = front
  have last : ((front ++ a).toList.getLast?.all (· == '/')) = false := by
    rw [String.toList_append, List.getLast?_append_of_ne_nil _ ha.toList_ne_nil,
      List.getLast?_eq_some_getLast ha.toList_ne_nil, Option.all_some, beq_eq_false_iff_ne]
    exact fun he => ha.no_separator (he ▸ List.getLast_mem ha.toList_ne_nil)
  rw [join_relative _ hb, last, if_neg (by simp), String.append_assoc, String.append_assoc,
    String.append_assoc]

theorem joined_cons (next : String) (names : List String) :
    Location.joined (a :: next :: names) = a ++ "/" ++ Location.joined (next :: names) := by
  simp [Location.joined, assemble, List.intercalate_cons_cons, ← String.toList_inj]

theorem relative_joined (h : ∀ s ∈ names, IsName s) :
    isAbsolute ⟨Location.joined names⟩ = false := by
  cases names with
  | nil => rfl
  | cons name names =>
    have first : IsName name := h name List.mem_cons_self
    cases names with
    | nil => simpa [Location.joined, assemble] using first.relative
    | cons next names =>
      rw [joined_cons, String.append_assoc]
      exact first.relative_append _

theorem joined_injective {names' : List String} (h : ∀ s ∈ names, IsName s) (named : names ≠ [])
    (h' : ∀ s ∈ names', IsName s) (named' : names' ≠ [])
    (same : Location.joined names = Location.joined names') : names = names' := by
  have text : ['/'].intercalate (names.map String.toList) =
      ['/'].intercalate (names'.map String.toList) := String.ofList_injective same
  have pieces := congrArg (List.splitOn '/') text
  rw [splitOn_intercalate_names h named, splitOn_intercalate_names h' named'] at pieces
  exact List.map_injective_iff.mpr (fun _ _ => String.toList_inj.mp) pieces

/-- Names are joined to a path one by one, or all at once. -/
theorem foldl_join (p : Path) (h : ∀ s ∈ name :: names, IsName s) :
    (name :: names).foldl join p = p.join (Location.joined (name :: names)) := by
  induction names generalizing p name with
  | nil => simp [Location.joined, assemble]
  | cons next names ih =>
    obtain ⟨hname, others⟩ := List.forall_mem_cons.mp h
    rw [List.foldl_cons, ih (p.join name) others, joined_cons,
      p.join_join hname (relative_joined others)]

/-- Different names behind a path make different paths. -/
theorem foldl_join_injective {names' : List String} (h : ∀ s ∈ names, IsName s)
    (named : names ≠ []) (h' : ∀ s ∈ names', IsName s) (named' : names' ≠ [])
    (same : names.foldl join p = names'.foldl join p) : names = names' := by
  refine joined_injective h named h' named' ?_
  obtain ⟨name, more, rfl⟩ := List.exists_cons_of_ne_nil named
  obtain ⟨name', more', rfl⟩ := List.exists_cons_of_ne_nil named'
  rw [foldl_join p h, foldl_join p h'] at same
  exact join_injective (relative_joined h) (relative_joined h') same

end Path

end EditorConfig
