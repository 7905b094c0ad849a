/-!
# Properties

A finite mapping from keys to values in the order in which the keys were first set. Setting a key
again changes its value and not its place. `keys` and `get?` are the two views by which the
operations are described.
-/
namespace EditorConfig

/-- Keys with values, each key once, in the order of first setting. -/
structure Properties where
  entries : List (String × String)
  distinct : (entries.map Prod.fst).Nodup
deriving DecidableEq, Repr

namespace Properties

/-- Sets a key in a list of entries: in its place if it is there, at the end if not. -/
def set (key value : String) : List (String × String) → List (String × String)
  | [] => [(key, value)]
  | (k, v) :: rest => if k = key then (k, value) :: rest else (k, v) :: set key value rest

theorem keys_set (key value : String) (entries : List (String × String)) :
    (set key value entries).map Prod.fst =
      if key ∈ entries.map Prod.fst then entries.map Prod.fst
      else entries.map Prod.fst ++ [key] := by
  induction entries with
  | nil => simp [set]
  | cons e rest ih =>
    obtain ⟨k, v⟩ := e
    by_cases h : k = key
    · simp [set, h]
    · have h' : ¬ key = k := fun e => h e.symm
      simp only [set, h, if_false, List.map_cons, ih, List.mem_cons, h', false_or]
      split <;> simp

theorem distinct_set (key value : String) {entries : List (String × String)}
    (h : (entries.map Prod.fst).Nodup) : ((set key value entries).map Prod.fst).Nodup := by
  rw [keys_set]
  split
  · exact h
  · next hk =>
    rw [List.nodup_append]
    refine ⟨h, by simp, ?_⟩
    intro a ha b hb he
    rw [List.mem_singleton] at hb
    exact hk (hb ▸ he ▸ ha)

/-- No key is set. -/
def empty : Properties := ⟨[], by simp⟩

instance : Inhabited Properties := ⟨empty⟩

/-- Sets a key. -/
def insert (p : Properties) (key value : String) : Properties :=
  ⟨set key value p.entries, distinct_set key value p.distinct⟩

/-- The value of a key. -/
def get? (p : Properties) (key : String) : Option String := p.entries.lookup key

/-- The keys, in the order of first setting. -/
def keys (p : Properties) : List String := p.entries.map Prod.fst

/-- The number of keys. -/
def size (p : Properties) : Nat := p.entries.length

/-- Whether no key is set. -/
def isEmpty (p : Properties) : Bool := p.entries.isEmpty

/-- Sets the keys of a list of pairs, one after another. -/
def insertMany (p : Properties) (pairs : List (String × String)) : Properties :=
  pairs.foldl (fun p (key, value) => p.insert key value) p

/-- The properties that a list of pairs sets. -/
def ofList (pairs : List (String × String)) : Properties := empty.insertMany pairs

/-- Sets every key of `other`, in its order. -/
def merge (p other : Properties) : Properties := p.insertMany other.entries

end Properties

end EditorConfig
