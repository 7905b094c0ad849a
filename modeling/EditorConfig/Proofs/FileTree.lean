import EditorConfig.Proofs.Path
/-!
# Changing one file of a tree

`view?` tells of every place in a tree whether something is there and, if it is a file, its bytes.
Rewriting a file changes the view at its own place only, and so does taking it away. Reading the
path of a place asks for no more than the view at that place.
-/
namespace EditorConfig

/-- The bytes of a file; a directory has none. -/
def Node.bytes? : Node → Option ByteArray
  | file content => some content
  | dir _ => none

/-- What names lead to from a file or directory. -/
def Node.descend? (names : List String) : Node → Option Node
  | file content => if names = [] then some (file content) else none
  | dir entries => entries.descend? names

/-- What is to be seen where names lead: nothing, a directory, or a file with its bytes. -/
def Listing.view? (names : List String) (l : Listing) : Option (Option ByteArray) :=
  (l.descend? names).map Node.bytes?

/-- What is to be seen at a location. -/
def FileTree.view? (t : FileTree) (l : Location) : Option (Option ByteArray) :=
  (t.node? l).map Node.bytes?

@[simp] theorem Node.descend?_nil : Node.descend? [] = some := by
  funext node
  cases node <;> rfl

namespace Listing
variable {l l' : Listing} {name n : String} {node : Node} {names inner path : List String}
  {content : ByteArray}

/-! ## Entries -/

/-- Files and directories stand in a listing alike, one entry in front of the others. -/
theorem entriesInduction {motive : Listing → Prop} (nil : motive nil)
    (cons : ∀ name node rest, motive rest → motive (cons name node rest)) : ∀ l, motive l := by
  intro l
  induction l with
  | nil => exact nil
  | file name content rest ih => exact cons name (.file content) rest ih
  | dir name sub rest _ ih => exact cons name (.dir sub) rest ih

theorem find?_cons : (cons name node l).find? n = if name = n then some node else l.find? n := by
  cases node <;> rfl

theorem set_cons {old : Node} : (cons n old l).set name node =
    if n = name then cons name node l else cons n old (l.set name node) := by
  cases old <;> rfl

theorem erase_cons : (cons n node l).erase name =
    if n = name then l else cons n node (l.erase name) := by
  cases node <;> rfl

theorem find?_set : (l.set name node).find? n = if n = name then some node else l.find? n := by
  induction l using entriesInduction with
  | nil => simp [set, find?_cons, find?, eq_comm]
  | cons m old rest ih =>
    rw [set_cons]
    by_cases hm : m = name
    · by_cases hn : n = name
      · simp [hm, hn, find?_cons]
      · simp [hm, hn, find?_cons, Ne.symm hn]
    · by_cases hn : m = n
      · simp [← hn, hm, find?_cons]
      · simp [hm, hn, find?_cons, ih]

theorem find?_eq_none (h : name ∉ l.names) : l.find? name = none := by
  induction l using entriesInduction with
  | nil => rfl
  | cons m node rest ih =>
    rw [names_cons, List.mem_cons, not_or] at h
    rw [find?_cons, if_neg (Ne.symm h.1), ih h.2]

/-- Names stand once, so none is left when the first is taken away. -/
theorem find?_erase (hl : l.Proper) :
    (l.erase name).find? n = if n = name then none else l.find? n := by
  induction l using entriesInduction with
  | nil => simp [erase, find?]
  | cons m node rest ih =>
    obtain ⟨-, fresh, -, hrest⟩ := proper_cons.mp hl
    rw [erase_cons]
    by_cases hm : m = name
    · subst hm
      by_cases hn : n = m
      · simp [hn, find?_eq_none fresh]
      · simp [hn, find?_cons, Ne.symm hn]
    · by_cases hn : m = n
      · simp [← hn, hm, find?_cons]
      · simp [hm, hn, find?_cons, ih hrest]

/-! ## Names that lead on -/

theorem descend?_cons :
    l.descend? (name :: inner) = (l.find? name).bind (Node.descend? inner) := by
  cases hfound : l.find? name with
  | none => simp [descend?, hfound]
  | some node =>
    cases node with
    | dir sub => simp [descend?, hfound, Node.descend?]
    | file content => cases inner <;> simp [descend?, hfound, Node.descend?]

theorem descend?_append :
    l.descend? (names ++ inner) = (l.descend? names).bind (Node.descend? inner) := by
  induction names generalizing l with
  | nil => rfl
  | cons name names ih =>
    rw [List.cons_append, descend?_cons, descend?_cons]
    cases l.find? name with
    | none => rfl
    | some node =>
      cases node with
      | dir sub => exact ih
      | file content => cases names <;> simp [Node.descend?]

theorem nodup_names (proper : l.Proper) : l.names.Nodup := by
  induction l using entriesInduction with
  | nil => exact .nil
  | cons name node rest ih =>
    obtain ⟨-, fresh, -, further⟩ := proper_cons.mp proper
    rw [names_cons]
    exact List.nodup_cons.mpr ⟨fresh, ih further⟩

theorem proper_of_descend? {sub : Listing} (proper : l.Proper)
    (leads : l.descend? names = some (.dir sub)) : sub.Proper := by
  induction names generalizing l with
  | nil => exact Node.dir.inj (Option.some.inj leads) ▸ proper
  | cons name inner ih =>
    rw [descend?_cons] at leads
    obtain ⟨node, entry, onward⟩ := Option.bind_eq_some_iff.mp leads
    have inside : node.Proper := proper_of_find? proper entry
    cases node with
    | file content => simp [Node.descend?] at onward
    | dir entries => exact ih inside onward

theorem view?_cons : l.view? (name :: inner) =
    (l.find? name).bind fun node => (node.descend? inner).map Node.bytes? := by
  rw [view?, descend?_cons, Option.map_bind]
  rfl

theorem view?_cons_dir {sub : Listing} (h : l.find? name = some (.dir sub)) :
    l.view? (name :: inner) = sub.view? inner := by
  rw [view?_cons, h]
  rfl

theorem view?_cons_file (h : l.find? name = some (.file content)) :
    l.view? (name :: inner) = if inner = [] then some (some content) else none := by
  rw [view?_cons, h]
  cases inner <;> rfl

theorem view?_cons_congr (h : l'.find? name = l.find? name) :
    l'.view? (name :: inner) = l.view? (name :: inner) := by
  rw [view?_cons, view?_cons, h]

/-- A file to be seen behind a first name is either the entry of that name or inside it. -/
theorem file_view?_cases (h : l.view? (name :: inner) = some (some content)) :
    (inner = [] ∧ l.find? name = some (.file content)) ∨
    ∃ sub, l.find? name = some (.dir sub) ∧ sub.view? inner = some (some content) := by
  cases hfound : l.find? name with
  | none => simp [view?_cons, hfound] at h
  | some node =>
    cases node with
    | file c =>
      rw [view?_cons_file hfound] at h
      split at h
      · next hnil =>
        obtain rfl := Option.some.inj (Option.some.inj h)
        exact .inl ⟨hnil, rfl⟩
      · cases h
    | dir sub =>
      rw [view?_cons_dir hfound] at h
      exact .inr ⟨sub, rfl, h⟩

/-! ## One file -/

/-- `l'` is `l` but for the file at `path`, of which now `now` is to be seen. -/
def Changed (path : List String) (now : Option ByteArray) (l l' : Listing) : Prop :=
  ∀ names, l'.view? names = if names = path then now.map some else l.view? names

/-- A change inside a directory is a change of what holds it. -/
theorem Changed.inside {sub sub' : Listing} {now : Option ByteArray}
    (h : Changed path now sub sub') (hfound : l.find? name = some (.dir sub)) :
    Changed (name :: path) now l (l.set name (.dir sub')) := by
  intro names
  cases names with
  | nil => rfl
  | cons n more =>
    by_cases hn : n = name
    · subst hn
      have hset : (l.set n (.dir sub')).find? n = some (.dir sub') := by rw [find?_set, if_pos rfl]
      rw [view?_cons_dir hset, view?_cons_dir hfound, h more]
      simp
    · have hset : (l.set name (.dir sub')).find? n = l.find? n := by rw [find?_set, if_neg hn]
      rw [view?_cons_congr hset, if_neg (by simp [hn])]

/-- A file at the last name is changed when the entry of that name is. -/
theorem Changed.last {now : Option ByteArray} (hfound : l.find? name = some (.file content))
    (here : l'.find? name = now.map .file) (others : ∀ n, n ≠ name → l'.find? n = l.find? n) :
    Changed [name] now l l' := by
  intro names
  cases names with
  | nil => rfl
  | cons n more =>
    by_cases hn : n = name
    · subst hn
      cases now with
      | none =>
        have gone : l'.view? (n :: more) = none := by simp [view?_cons, here]
        rw [gone, view?_cons_file hfound]
        by_cases hmore : more = [] <;> simp [hmore]
      | some c =>
        rw [view?_cons_file here, view?_cons_file hfound]
        by_cases hmore : more = [] <;> simp [hmore]
    · rw [view?_cons_congr (others n hn), if_neg (by simp [hn])]

theorem put?_inside {sub : Listing} (hfound : l.find? name = some (.dir sub)) (hne : inner ≠ []) :
    l.put? node (name :: inner) = (sub.put? node inner).map fun sub => l.set name (.dir sub) := by
  cases inner with
  | nil => exact absurd rfl hne
  | cons next more => simp only [put?, hfound]

theorem remove?_inside {sub : Listing} (hfound : l.find? name = some (.dir sub))
    (hne : inner ≠ []) :
    l.remove? (name :: inner) = (sub.remove? inner).map fun sub => l.set name (.dir sub) := by
  cases inner with
  | nil => exact absurd rfl hne
  | cons next more => simp only [remove?, hfound]

/-- A file that is there can be rewritten, and that changes nothing else. -/
theorem exists_put? (h : l.view? path = some (some content)) (now : ByteArray) :
    ∃ l', l.put? (.file now) path = some l' ∧ Changed path (some now) l l' := by
  induction path generalizing l with
  | nil => cases h
  | cons name inner ih =>
    rcases file_view?_cases h with ⟨rfl, hfound⟩ | ⟨sub, hfound, hsub⟩
    · refine ⟨l.set name (.file now), by simp [put?, hfound, Node.isDir], ?_⟩
      apply Changed.last hfound
      · rw [find?_set, if_pos rfl]
        rfl
      · intro n hn
        rw [find?_set, if_neg hn]
    · obtain ⟨sub', hput, changed⟩ := ih hsub
      have hne : inner ≠ [] := fun he => by simp [he, view?, descend?, Node.bytes?] at hsub
      refine ⟨l.set name (.dir sub'), ?_, changed.inside hfound⟩
      rw [put?_inside hfound hne, hput]
      rfl

/-- A file at a new name is to be seen there and changes nothing else. -/
theorem Changed.fresh (absent : l.find? name = none) (now : ByteArray) :
    Changed [name] (some now) l (l.set name (.file now)) := by
  intro names
  cases names with
  | nil => rfl
  | cons n more =>
    by_cases hn : n = name
    · subst hn
      have here : (l.set n (.file now)).find? n = some (.file now) := by rw [find?_set, if_pos rfl]
      have before : l.view? (n :: more) = none := by simp [view?_cons, absent]
      rw [view?_cons_file here, before]
      by_cases hmore : more = [] <;> simp [hmore]
    · have others : (l.set name (.file now)).find? n = l.find? n := by rw [find?_set, if_neg hn]
      rw [view?_cons_congr others, if_neg (by simp [hn])]

/-- In a directory that is there a file can be put at a new name. -/
theorem exists_put?_fresh {sub : Listing} (there : l.descend? names = some (.dir sub))
    (absent : sub.find? name = none) (now : ByteArray) :
    ∃ l', l.put? (.file now) (names ++ [name]) = some l' ∧
      Changed (names ++ [name]) (some now) l l' := by
  induction names generalizing l with
  | nil =>
    obtain rfl := Node.dir.inj (Option.some.inj there)
    exact ⟨l.set name (.file now), by simp [put?, absent], Changed.fresh absent now⟩
  | cons n names ih =>
    rw [descend?_cons] at there
    obtain ⟨node, entry, inside⟩ := Option.bind_eq_some_iff.mp there
    cases node with
    | file content => simp [Node.descend?] at inside
    | dir entries =>
      obtain ⟨entries', hput, changed⟩ := ih inside
      refine ⟨l.set n (.dir entries'), ?_, changed.inside entry⟩
      rw [List.cons_append, put?_inside entry (by simp), hput]
      rfl

/-- A file that is there can be taken away, and that changes nothing else. -/
theorem exists_remove? (hl : l.Proper) (h : l.view? path = some (some content)) :
    ∃ l', l.remove? path = some l' ∧ Changed path none l l' := by
  induction path generalizing l with
  | nil => cases h
  | cons name inner ih =>
    rcases file_view?_cases h with ⟨rfl, hfound⟩ | ⟨sub, hfound, hsub⟩
    · refine ⟨l.erase name, by simp [remove?, hfound], ?_⟩
      apply Changed.last hfound
      · rw [find?_erase hl, if_pos rfl]
        rfl
      · intro n hn
        rw [find?_erase hl, if_neg hn]
    · obtain ⟨sub', hremove, changed⟩ := ih (proper_of_find? hl hfound) hsub
      have hne : inner ≠ [] := fun he => by simp [he, view?, descend?, Node.bytes?] at hsub
      refine ⟨l.set name (.dir sub'), ?_, changed.inside hfound⟩
      rw [remove?_inside hfound hne, hremove]
      rfl

end Listing

namespace FileTree
variable {t t' : FileTree} {l : Location} {content : ByteArray}

/-- `t'` is `t` but for the file at `l`, of which now `now` is to be seen. -/
def Changed (l : Location) (now : Option ByteArray) (t t' : FileTree) : Prop :=
  ∀ l', t'.view? l' = if l' = l then now.map some else t.view? l'

theorem isDir_eq (t : FileTree) (l : Location) : t.isDir l = (t.view? l == some none) := by
  unfold isDir view?
  cases t.node? l with
  | none => rfl
  | some node => cases node <;> rfl

theorem changed_of_root {now : Option ByteArray}
    (h : Listing.Changed l.reverse now t.root t'.root) : Changed l now t t' := by
  intro l'
  have view := h l'.reverse
  simp only [List.reverse_inj] at view
  exact view

theorem plain_of_view? (h : t.view? l = some (some content)) : ∀ s ∈ l.reverse, Plain s := by
  obtain ⟨node, hnode, -⟩ := Option.map_eq_some_iff.mp h
  exact Listing.plain_of_descend? t.proper hnode

theorem node?_cons {name : String} {sub : Listing} (h : t.node? l = some (.dir sub)) :
    t.node? (name :: l) = sub.find? name := by
  have down : t.root.descend? l.reverse = some (.dir sub) := h
  rw [node?, List.reverse_cons, Listing.descend?_append, down]
  simp [Node.descend?, Listing.descend?_cons]

theorem ext_root (h : t.root = t'.root) : t = t' := by
  obtain ⟨root, _⟩ := t
  obtain ⟨root', _⟩ := t'
  obtain rfl : root = root' := h
  rfl

/-- A tree is built from a listing that is found, where the names allow it. -/
theorem built_eq_some_iff {plain : Prop} [Decidable plain] {found : Option Listing}
    {proper : plain → ∀ root, found = some root → root.Proper} :
    (if h : plain then
        match hfound : found with
        | some root => some ⟨root, proper h root hfound⟩
        | none => none
      else none) = some t' ↔ plain ∧ found = some t'.root := by
  by_cases h : plain
  · rw [dif_pos h]
    cases found with
    | none => exact ⟨nofun, fun he => absurd he.2 nofun⟩
    | some root =>
      simp only [Option.some_inj]
      exact ⟨fun he => ⟨h, he ▸ rfl⟩, fun he => ext_root he.2⟩
  · rw [dif_neg h]
    exact ⟨nofun, fun he => absurd he.1 h⟩

theorem put?_eq_some_iff {now : ByteArray} : t.put? l (some now) = some t' ↔
    (∀ s ∈ l.reverse, Plain s) ∧ t.root.put? (.file now) l.reverse = some t'.root :=
  built_eq_some_iff

theorem remove?_eq_some_iff : t.remove? l = some t' ↔
    (∀ s ∈ l.reverse, Plain s) ∧ t.root.remove? l.reverse = some t'.root :=
  built_eq_some_iff

/-- A file that is there can be rewritten, and that changes nothing else. -/
theorem exists_put? (h : t.view? l = some (some content)) (now : ByteArray) :
    ∃ t', t.put? l (some now) = some t' ∧ Changed l (some now) t t' := by
  obtain ⟨root, hput, changed⟩ := Listing.exists_put? h now
  have plain := plain_of_view? h
  have node : (Node.file now).Proper := trivial
  have proper := Listing.proper_of_put? node plain t.proper hput
  exact ⟨⟨root, proper⟩, put?_eq_some_iff.mpr ⟨plain, hput⟩, changed_of_root changed⟩

/-- Every file and every directory of `t` is in `t'` as it was. -/
def Kept (t t' : FileTree) : Prop := ∀ l seen, t.view? l = some seen → t'.view? l = some seen

/-- In a directory that is there a file can be put at a new name. -/
theorem exists_put?_fresh {outer : Location} {entries : Listing} {name : String}
    (there : t.node? outer = some (.dir entries))
    (absent : entries.find? name = none) (plain : Plain name) (now : ByteArray) :
    ∃ t', t.put? (name :: outer) (some now) = some t' ∧
      Changed (name :: outer) (some now) t t' := by
  obtain ⟨root, hput, changed⟩ := Listing.exists_put?_fresh there absent now
  have names : ∀ s ∈ outer.reverse ++ [name], Plain s := by
    intro s hs
    rcases List.mem_append.mp hs with hs | hs
    · exact Listing.plain_of_descend? t.proper there s hs
    · exact List.mem_singleton.mp hs ▸ plain
  have node : (Node.file now).Proper := trivial
  have proper := Listing.proper_of_put? node names t.proper hput
  rw [← List.reverse_cons] at names hput changed
  exact ⟨⟨root, proper⟩, put?_eq_some_iff.mpr ⟨names, hput⟩, changed_of_root changed⟩

/-- A file that is there can be taken away, and that changes nothing else. -/
theorem exists_remove? (h : t.view? l = some (some content)) :
    ∃ t', t.remove? l = some t' ∧ Changed l none t t' := by
  obtain ⟨root, hremove, changed⟩ := Listing.exists_remove? t.proper h
  have plain := plain_of_view? h
  have proper := Listing.proper_of_remove? plain t.proper hremove
  exact ⟨⟨root, proper⟩, remove?_eq_some_iff.mpr ⟨plain, hremove⟩, changed_of_root changed⟩

theorem isSome_view? : (t.view? l).isSome = (t.node? l).isSome := Option.isSome_map

/-- A file where nothing was leaves everything as it was. -/
theorem Changed.kept {now : ByteArray} (h : Changed l (some now) t t')
    (absent : t.node? l = none) : Kept t t' := by
  intro l' seen before
  rw [h l', if_neg, before]
  rintro rfl
  simp [view?, absent] at before

/-- Directories stay as they are when a file changes. -/
theorem Changed.isDir {now : Option ByteArray} (h : Changed l now t t')
    (file : t.view? l = some (some content)) (l' : Location) : t'.isDir l' = t.isDir l' := by
  rw [isDir_eq, isDir_eq, h l']
  split
  · next he =>
    rw [he, file]
    cases now <;> rfl
  · rfl

end FileTree

/-! ## Reading what is there -/

namespace FileSystem
open EditorConfig.Path (IsName)

/-- Names are followed as far as they lead. -/
theorem toOption_walk {t : FileTree} {here : Location} {sub : Listing} {names : List String}
    (hdir : t.node? here = some (.dir sub)) (hnames : ∀ s ∈ names, IsName s) :
    (walk t here (names.map String.toList)).toOption =
      if (∀ s ∈ names, s.utf8ByteSize ≤ maxNameLength) ∧ (sub.descend? names).isSome then
        some (names.reverse ++ here) else none := by
  induction names generalizing here sub with
  | nil => simp [walk, Listing.descend?, Except.toOption]
  | cons name inner ih =>
    rw [List.forall_mem_cons] at hnames
    simp only [List.map_cons, walk, hdir, Path.component?_toList hnames.1]
    by_cases long : maxNameLength < name.utf8ByteSize
    · rw [if_pos long, if_neg fun h => absurd (h.1 name List.mem_cons_self) (Nat.not_le_of_lt long)]
      rfl
    · have fits : name.utf8ByteSize ≤ maxNameLength := Nat.le_of_not_lt long
      rw [if_neg long, Listing.descend?_cons]
      cases hfound : sub.find? name with
      | none => simp [Except.toOption]
      | some node =>
        have there : t.node? (name :: here) = some node := by
          rw [FileTree.node?_cons hdir, hfound]
        cases node with
        | dir inside =>
          simp [ih there hnames.2, fits, Node.descend?]
        | file content =>
          cases inner with
          | nil => simp [walk, Except.toOption, fits]
          | cons next more => simp [walk, there, Except.toOption, Node.descend?]

theorem toOption_read (fs : FileSystem) (p : Path) :
    (fs.read p).toOption = ((fs.find p).toOption.bind fs.tree.view?).join := by
  unfold read node FileTree.view?
  cases fs.find p with
  | error e => rfl
  | ok l =>
    cases hnode : fs.tree.node? l with
    | none => simp [Except.toOption, hnode]
    | some node => cases node <;> simp [Except.toOption, hnode, Node.bytes?]

theorem start_path (fs : FileSystem) {l : Location} (hl : ∀ s ∈ l, IsName s) (hne : l ≠ []) :
    fs.start l.path = ([], l.reverse.map String.toList) := by
  have names : ∀ s ∈ l.reverse, IsName s := fun s hs => hl s (List.mem_reverse.mp hs)
  unfold start
  rw [Location.toList_path]
  simp only
  rw [Path.splitOn_intercalate_names names (by simpa using hne)]

end FileSystem

end EditorConfig
