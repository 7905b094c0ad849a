import EditorConfig.Proofs.Properties
/-!
# The monoid of properties

Collecting turns the concatenation of lists of pairs into merging, and every mapping is collected
from its own entries. So mappings inherit the laws of concatenation, and beyond those the laws of
the last writer, who gives the value, and of the first, who gives the place.

The invariant that keys differ is part of the type. `Built` tells which lists of entries come about
without it: they are the same.
-/
namespace EditorConfig.Properties

/-- Sets the pairs of a list in a list of entries, one after another. -/
def setAll (entries pairs : List (String × String)) : List (String × String) :=
  pairs.foldl (fun entries (key, value) => set key value entries) entries

/-- Lists of entries that come about from nothing, by setting keys and by setting all the entries
of another such list. -/
inductive Built : List (String × String) → Prop
  | empty : Built []
  | insert {entries : List (String × String)} (key value : String) (built : Built entries) :
      Built (set key value entries)
  | merge {entries others : List (String × String)} (built : Built entries)
      (other : Built others) : Built (setAll entries others)

/-- Keys with their last values, in the order of their first occurrences. -/
def collected (pairs : List (String × String)) : List (String × String) :=
  (pairs.map Prod.fst).eraseDups.filterMap fun key => (pairs.reverse.lookup key).map (key, ·)

/-! ## What comes about -/

theorem entries_insertMany_eq (p : Properties) (pairs : List (String × String)) :
    (p.insertMany pairs).entries = setAll p.entries pairs := by
  induction pairs generalizing p with
  | nil => rfl
  | cons e pairs ih => exact ih (p.insert e.1 e.2)

/-- Whatever comes about is a mapping. -/
theorem Built.exists_properties {entries : List (String × String)} (h : Built entries) :
    ∃ p : Properties, p.entries = entries := by
  induction h with
  | empty => exact ⟨.empty, rfl⟩
  | insert key value _ ih =>
    obtain ⟨p, rfl⟩ := ih
    exact ⟨p.insert key value, rfl⟩
  | merge _ _ ih ihOther =>
    obtain ⟨p, rfl⟩ := ih
    obtain ⟨other, rfl⟩ := ihOther
    exact ⟨p.merge other, entries_insertMany_eq p other.entries⟩

theorem Built.insertMany {p : Properties} (h : Built p.entries)
    (pairs : List (String × String)) : Built (p.insertMany pairs).entries := by
  induction pairs generalizing p with
  | nil => exact h
  | cons e pairs ih => exact ih (p := p.insert e.1 e.2) (h.insert e.1 e.2)

theorem built_iff {entries : List (String × String)} :
    Built entries ↔ (entries.map Prod.fst).Nodup := by
  constructor
  · intro h
    obtain ⟨p, rfl⟩ := h.exists_properties
    exact p.distinct
  · intro distinct
    have written := Built.insertMany (p := .empty) .empty entries
    rwa [show (insertMany .empty entries).entries = entries from entries_ofList distinct]
      at written

/-! ## Two views make up a mapping -/

/-- The entries are the keys, each with its value. -/
theorem entries_eq (p : Properties) :
    p.entries = p.keys.filterMap fun key => (p.get? key).map (key, ·) := by
  obtain ⟨entries, distinct⟩ := p
  change entries = (entries.map Prod.fst).filterMap fun key => (entries.lookup key).map (key, ·)
  induction entries with
  | nil => rfl
  | cons e rest ih =>
    obtain ⟨key, value⟩ := e
    rw [List.map_cons, List.nodup_cons] at distinct
    have later : (rest.map Prod.fst).filterMap
        (fun k => (((key, value) :: rest).lookup k).map (k, ·)) = rest := by
      refine (List.filterMap_congr fun k hk => ?_).trans (ih distinct.2).symm
      have other : k ≠ key := fun he => distinct.1 (he ▸ hk)
      rw [List.lookup_cons, beq_false_of_ne other]
    rw [List.map_cons, List.filterMap_cons, later, List.lookup_cons, beq_self_eq_true]
    rfl

/-- Mappings are the same if they have the same keys in the same order, with the same values. -/
theorem ext_views {p p' : Properties} (keys : p.keys = p'.keys)
    (values : ∀ key, p.get? key = p'.get? key) : p = p' := by
  apply ext_entries
  rw [entries_eq, entries_eq p', keys, funext values]

/-! ## Laws -/

theorem get?_ofList (pairs : List (String × String)) (key : String) :
    (ofList pairs).get? key = pairs.reverse.lookup key := by
  rw [ofList, get?_insertMany, get?_empty, Option.or_none]

theorem keys_ofList (pairs : List (String × String)) :
    (ofList pairs).keys = (pairs.map Prod.fst).eraseDups :=
  keys_insertMany empty pairs

theorem entries_ofList_eq (pairs : List (String × String)) :
    (ofList pairs).entries = collected pairs := by
  rw [entries_eq, keys_ofList, funext (get?_ofList pairs), collected]

theorem mem_of_lookup {α : Type} {entries : List (String × α)} {key : String} {a : α}
    (h : entries.lookup key = some a) : (key, a) ∈ entries := by
  obtain ⟨before, after, rfl, -⟩ := List.lookup_eq_some_iff.mp h
  exact List.mem_append_right _ List.mem_cons_self

/-- Whatever is set was set by one of the pairs. -/
theorem mem_of_mem_ofList {pairs : List (String × String)} {e : String × String}
    (h : e ∈ (ofList pairs).entries) : e ∈ pairs := by
  rw [entries_ofList_eq, collected, List.mem_filterMap] at h
  obtain ⟨key, -, hkey⟩ := h
  obtain ⟨value, hvalue, rfl⟩ := Option.map_eq_some_iff.mp hkey
  exact List.mem_reverse.mp (mem_of_lookup hvalue)

/-- Collecting one list behind another is merging what each of them collects. -/
theorem ofList_append (xs ys : List (String × String)) :
    ofList (xs ++ ys) = (ofList xs).merge (ofList ys) := by
  apply ext_views
  · rw [keys_merge, keys_ofList, keys_ofList, keys_ofList, eraseDups_eraseDups_append,
      eraseDups_append_eraseDups, List.map_append]
  · intro key
    rw [get?_merge, get?_ofList, get?_ofList, get?_ofList, List.reverse_append,
      List.lookup_append]

/-- Merging is collecting the entries of both. -/
theorem merge_eq_ofList (p other : Properties) :
    p.merge other = ofList (p.entries ++ other.entries) := by
  rw [ofList_append, ofList_entries, ofList_entries]

theorem merge_assoc (a b c : Properties) : (a.merge b).merge c = a.merge (b.merge c) := by
  calc (a.merge b).merge c
      = (ofList (a.entries ++ b.entries)).merge (ofList c.entries) := by
        rw [merge_eq_ofList a b, ofList_entries]
    _ = ofList (a.entries ++ (b.entries ++ c.entries)) := by
        rw [← ofList_append, List.append_assoc]
    _ = a.merge (b.merge c) := by
        rw [ofList_append, ofList_entries, ← merge_eq_ofList]

theorem merge_empty (p : Properties) : p.merge empty = p := rfl

theorem empty_merge (p : Properties) : empty.merge p = p := ofList_entries p

/-- Setting what is set already changes nothing. -/
theorem merge_self (p : Properties) : p.merge p = p := by
  apply ext_views
  · have nothing : p.keys.removeAll p.keys = [] := by simp [List.removeAll]
    rw [keys_merge, List.eraseDups_append, nothing, List.eraseDups_nil, List.append_nil]
    exact eraseDups_of_nodup p.distinct
  · intro key
    rw [get?_merge, Option.or_self]

theorem get?_eq_none_iff {p : Properties} {key : String} : p.get? key = none ↔ key ∉ p.keys := by
  rw [get?, List.lookup_eq_none_iff, keys, List.mem_map, not_exists]
  refine forall_congr' fun e => ?_
  rw [not_and, bne_iff_ne, ne_comm]

/-- Mappings that come about by setting and merging have distinct keys, and any list with distinct
keys is one. What a list of pairs sets is its keys in the order of their first occurrences with the
values of their last ones. Lists one behind the other are merged; merging is associative, the empty
mapping is neutral on both sides, nothing changes by merging a mapping into itself, and a key has
the value of the mapping that was merged last if that one has the key. -/
theorem merge_monoid :
    (∀ entries, Built entries ↔ (entries.map Prod.fst).Nodup) ∧
    (∀ pairs, (ofList pairs).entries = collected pairs) ∧
    (∀ xs ys, ofList (xs ++ ys) = (ofList xs).merge (ofList ys)) ∧
    (∀ a b c : Properties, (a.merge b).merge c = a.merge (b.merge c)) ∧
    (∀ a : Properties, a.merge empty = a ∧ empty.merge a = a ∧ a.merge a = a) ∧
    ∀ (a b : Properties) (key : String),
      (a.merge b).get? key = if key ∈ b.keys then b.get? key else a.get? key := by
  refine ⟨fun _ => built_iff, entries_ofList_eq, ofList_append, merge_assoc,
    fun a => ⟨merge_empty a, empty_merge a, merge_self a⟩, ?_⟩
  intro a b key
  rw [get?_merge]
  split
  · next declared =>
    obtain ⟨value, hvalue⟩ :=
      Option.ne_none_iff_exists'.mp fun absent => get?_eq_none_iff.mp absent declared
    rw [hvalue, Option.some_or]
  · next undeclared => rw [get?_eq_none_iff.mpr undeclared, Option.none_or]

-- A key that is set again keeps its place.
example : (ofList [("a", "1"), ("b", "2"), ("a", "3")]).entries = [("a", "3"), ("b", "2")] := by
  decide

end EditorConfig.Properties
