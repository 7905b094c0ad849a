import EditorConfig.Properties
import Mathlib.Data.List.Nodup
/-!
# Setting and merging properties

Values and places go by opposite rules: of several settings of a key the last gives the value and
the first gives the place. Both are stated of a list of pairs set one after another, and merging is
setting the pairs of the other mapping.
-/
namespace EditorConfig.Properties

/-! ## First occurrences -/

theorem nodup_eraseDups {α : Type} [DecidableEq α] (l : List α) : l.eraseDups.Nodup := by
  match l with
  | [] => exact List.nodup_nil
  | a :: l =>
    rw [List.eraseDups_cons, List.nodup_cons]
    refine ⟨?_, nodup_eraseDups _⟩
    simp [List.mem_eraseDups]
termination_by l.length
decreasing_by exact Nat.lt_succ_of_le (List.length_filter_le ..)

theorem eraseDups_of_nodup {α : Type} [DecidableEq α] {l : List α} (h : l.Nodup) :
    l.eraseDups = l := by
  induction l with
  | nil => rfl
  | cons a l ih =>
    obtain ⟨ha, hl⟩ := List.nodup_cons.mp h
    have others : l.filter (fun b => !b == a) = l := by
      refine List.filter_eq_self.mpr fun b hb => ?_
      simpa using fun he : b = a => ha (he ▸ hb)
    rw [List.eraseDups_cons, others, ih hl]

theorem eraseDups_eraseDups_append {α : Type} [DecidableEq α] (as bs : List α) :
    (as.eraseDups ++ bs).eraseDups = (as ++ bs).eraseDups := by
  have same : bs.removeAll as.eraseDups = bs.removeAll as := by
    simp [List.removeAll, List.mem_eraseDups]
  rw [List.eraseDups_append, List.eraseDups_append, eraseDups_of_nodup (nodup_eraseDups as), same]

theorem eraseDups_filter {α : Type} [DecidableEq α] (p : α → Bool) (l : List α) :
    (l.filter p).eraseDups = l.eraseDups.filter p := by
  match l with
  | [] => rfl
  | a :: l =>
    have others := eraseDups_filter p (l.filter fun b => !b == a)
    rw [List.eraseDups_cons]
    by_cases ha : p a = true
    · rw [List.filter_cons_of_pos ha, List.filter_cons_of_pos ha, List.eraseDups_cons, ← others,
        List.filter_filter, List.filter_filter]
      simp only [Bool.and_comm]
    · have same : (l.filter fun b => !b == a).filter p = l.filter p := by
        rw [List.filter_filter]
        refine List.filter_congr fun b _ => ?_
        by_cases hb : b = a
        · simp [hb, ha]
        · simp [hb]
      rw [List.filter_cons_of_neg ha, List.filter_cons_of_neg ha, ← others, same]
termination_by l.length
decreasing_by exact Nat.lt_succ_of_le (List.length_filter_le ..)

theorem eraseDups_append_eraseDups {α : Type} [DecidableEq α] (as bs : List α) :
    (as ++ bs.eraseDups).eraseDups = (as ++ bs).eraseDups := by
  have fresh : bs.eraseDups.removeAll as = (bs.removeAll as).eraseDups :=
    (eraseDups_filter _ bs).symm
  rw [List.eraseDups_append, List.eraseDups_append, fresh, eraseDups_of_nodup (nodup_eraseDups _)]

/-! ## One key -/

theorem lookup_set (key value k : String) (entries : List (String × String)) :
    (set key value entries).lookup k = if k = key then some value else entries.lookup k := by
  induction entries with
  | nil =>
    by_cases h : k = key
    · simp [set, h]
    · simp [set, List.lookup_cons, beq_false_of_ne h, h]
  | cons e rest ih =>
    obtain ⟨k', v⟩ := e
    by_cases hk : k' = key
    · by_cases h : k = key
      · simp [set, hk, h]
      · simp [set, hk, List.lookup_cons, beq_false_of_ne h, h]
    · by_cases h : k = k'
      · simp [set, hk, h]
      · simp [set, hk, List.lookup_cons, beq_false_of_ne h, ih]

@[simp] theorem get?_empty (k : String) : empty.get? k = none := rfl

theorem get?_insert (p : Properties) (key value k : String) :
    (p.insert key value).get? k = if k = key then some value else p.get? k :=
  lookup_set key value k p.entries

theorem keys_insert (p : Properties) (key value : String) :
    (p.insert key value).keys = (p.keys ++ [key]).eraseDups := by
  have once : (p.keys ++ [key]).eraseDups =
      p.keys ++ if key ∈ p.keys then [] else [key] := by
    rw [List.eraseDups_append, show p.keys.eraseDups = p.keys from eraseDups_of_nodup p.distinct]
    split
    · simp [List.removeAll, *]
    · simp [List.removeAll, List.eraseDups_cons, *]
  rw [once]
  refine (keys_set key value p.entries).trans ?_
  by_cases h : key ∈ p.keys
  · simp only [keys] at h ⊢
    simp [h]
  · simp only [keys] at h ⊢
    simp [h]

/-! ## Many keys -/

theorem insertMany_nil (p : Properties) : p.insertMany [] = p := rfl

theorem insertMany_cons (p : Properties) (key value : String) (pairs : List (String × String)) :
    p.insertMany ((key, value) :: pairs) = (p.insert key value).insertMany pairs := rfl

theorem get?_insertMany (p : Properties) (pairs : List (String × String)) (k : String) :
    (p.insertMany pairs).get? k = (pairs.reverse.lookup k).or (p.get? k) := by
  induction pairs generalizing p with
  | nil => rfl
  | cons e pairs ih =>
    obtain ⟨key, value⟩ := e
    rw [insertMany_cons, ih, get?_insert, List.reverse_cons, List.lookup_append, Option.or_assoc]
    by_cases h : k = key
    · simp [h]
    · simp [h, List.lookup_cons, beq_false_of_ne h]

theorem keys_insertMany (p : Properties) (pairs : List (String × String)) :
    (p.insertMany pairs).keys = (p.keys ++ pairs.map Prod.fst).eraseDups := by
  induction pairs generalizing p with
  | nil =>
    rw [List.map_nil, List.append_nil]
    exact (eraseDups_of_nodup p.distinct).symm
  | cons e pairs ih =>
    obtain ⟨key, value⟩ := e
    rw [insertMany_cons, ih, keys_insert, eraseDups_eraseDups_append]
    simp

theorem lookup_reverse {entries : List (String × String)} (h : (entries.map Prod.fst).Nodup)
    (k : String) : entries.reverse.lookup k = entries.lookup k := by
  induction entries with
  | nil => rfl
  | cons e rest ih =>
    obtain ⟨key, value⟩ := e
    rw [List.map_cons, List.nodup_cons] at h
    rw [List.reverse_cons, List.lookup_append, ih h.2]
    by_cases hk : k = key
    · have fresh : rest.lookup key = none := by
        refine List.lookup_eq_none_iff.mpr fun e he => bne_iff_ne.mpr fun hne => h.1 ?_
        exact List.mem_map.mpr ⟨e, he, hne.symm⟩
      simp [hk, fresh]
    · simp [List.lookup_cons, beq_false_of_ne hk]

theorem get?_merge (p other : Properties) (k : String) :
    (p.merge other).get? k = (other.get? k).or (p.get? k) := by
  rw [merge, get?_insertMany, lookup_reverse other.distinct]
  rfl

theorem keys_merge (p other : Properties) :
    (p.merge other).keys = (p.keys ++ other.keys).eraseDups :=
  keys_insertMany p other.entries

/-! ## New keys -/

theorem set_of_fresh {key : String} (value : String) {entries : List (String × String)}
    (fresh : key ∉ entries.map Prod.fst) : set key value entries = entries ++ [(key, value)] := by
  induction entries with
  | nil => rfl
  | cons e rest ih =>
    obtain ⟨k, v⟩ := e
    rw [List.map_cons, List.mem_cons, not_or] at fresh
    simp [set, Ne.symm fresh.1, ih fresh.2]

/-- Pairs with keys of their own are added as they stand. -/
theorem entries_insertMany {p : Properties} {pairs : List (String × String)}
    (h : ((p.entries ++ pairs).map Prod.fst).Nodup) :
    (p.insertMany pairs).entries = p.entries ++ pairs := by
  induction pairs generalizing p with
  | nil => simp [insertMany]
  | cons e pairs ih =>
    obtain ⟨key, value⟩ := e
    have fresh : key ∉ p.entries.map Prod.fst := by
      rw [List.map_append, List.map_cons, List.nodup_append] at h
      exact fun hk => h.2.2 key hk key List.mem_cons_self rfl
    have added : (p.insert key value).entries = p.entries ++ [(key, value)] :=
      set_of_fresh value fresh
    have whole : (p.insert key value).entries ++ pairs = p.entries ++ (key, value) :: pairs := by
      rw [added, List.append_assoc, List.singleton_append]
    rw [insertMany_cons, ih (whole ▸ h), whole]

theorem entries_ofList {pairs : List (String × String)} (h : (pairs.map Prod.fst).Nodup) :
    (ofList pairs).entries = pairs := entries_insertMany (p := empty) h

theorem ext_entries {p p' : Properties} (h : p.entries = p'.entries) : p = p' := by
  obtain ⟨entries, _⟩ := p
  obtain ⟨entries', _⟩ := p'
  obtain rfl : entries = entries' := h
  rfl

/-- The entries of a mapping make it up again. -/
theorem ofList_entries (p : Properties) : ofList p.entries = p :=
  ext_entries (entries_ofList p.distinct)

end EditorConfig.Properties
