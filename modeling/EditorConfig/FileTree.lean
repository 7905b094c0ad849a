import EditorConfig.Path
/-!
# File trees

The files and directories below a root, as a value. The names in a directory are plain (no
separator, no dots that mean something else) and each stands once; `FileTree` carries both facts,
and writing and removing keep them.
-/
namespace EditorConfig

/-- A name that a file or directory can have. -/
def Plain (name : String) : Prop :=
  name ≠ "" ∧ name ≠ "." ∧ name ≠ ".." ∧ '/' ∉ name.toList ∧ '\x00' ∉ name.toList

instance (name : String) : Decidable (Plain name) := inferInstanceAs (Decidable (_ ∧ _))

-- Contents are compared in one way, also where a library brings another.
instance instDecidableEqContent : DecidableEq ByteArray := ByteArray.instDecidableEq

/-- What a directory holds, entry by entry. -/
inductive Listing where
  | nil
  | file (name : String) (content : ByteArray) (rest : Listing)
  | dir (name : String) (sub rest : Listing)
deriving DecidableEq

/-- A file or a directory. -/
inductive Node where
  | file (content : ByteArray)
  | dir (entries : Listing)
deriving DecidableEq

/-- Whether a node is a directory. -/
def Node.isDir : Node → Bool
  | dir _ => true
  | file _ => false

namespace Listing

/-- The names of the entries. -/
def names : Listing → List String
  | nil => []
  | file name _ rest => name :: rest.names
  | dir name _ rest => name :: rest.names

/-- Names are plain and stand once, here and in all directories below. -/
def Proper : Listing → Prop
  | nil => True
  | file name _ rest => Plain name ∧ name ∉ rest.names ∧ rest.Proper
  | dir name sub rest => Plain name ∧ name ∉ rest.names ∧ sub.Proper ∧ rest.Proper

/-- The entry with a given name. -/
def find? (name : String) : Listing → Option Node
  | nil => none
  | file n content rest => if n = name then some (.file content) else rest.find? name
  | dir n sub rest => if n = name then some (.dir sub) else rest.find? name

/-- What the names, the outermost first, lead to. -/
def descend? : List String → Listing → Option Node
  | [], l => some (.dir l)
  | name :: inner, l =>
    match l.find? name, inner with
    | some (.dir sub), _ => sub.descend? inner
    | some (.file content), [] => some (.file content)
    | _, _ => none

/-- Puts a node in front of a listing. -/
def cons (name : String) : Node → Listing → Listing
  | .file content, rest => file name content rest
  | .dir sub, rest => dir name sub rest

/-- Gives a name a node: in its place if the name is there, at the end if not. -/
def set (name : String) (node : Node) : Listing → Listing
  | nil => cons name node nil
  | file n content rest =>
    if n = name then cons name node rest else file n content (rest.set name node)
  | dir n sub rest => if n = name then cons name node rest else dir n sub (rest.set name node)

/-- Takes a name away. -/
def erase (name : String) : Listing → Listing
  | nil => nil
  | file n content rest => if n = name then rest else file n content (rest.erase name)
  | dir n sub rest => if n = name then rest else dir n sub (rest.erase name)

/-- Puts a node where the names lead, making the directories on the way. A file takes the place of
a file and a directory finds itself there already; anything else in the way is an obstacle. -/
def put? (node : Node) : List String → Listing → Option Listing
  | [], _ => none
  | name :: inner, l =>
    match l.find? name, inner with
    | none, [] => some (l.set name node)
    | some (.file _), [] => if node.isDir then none else some (l.set name node)
    | some (.dir _), [] => if node.isDir then some l else none
    | some (.file _), _ :: _ => none
    | none, _ :: _ => (nil.put? node inner).map fun sub => l.set name (.dir sub)
    | some (.dir sub), _ :: _ => (sub.put? node inner).map fun sub => l.set name (.dir sub)

/-- Takes away what the names lead to, with all below it. -/
def remove? : List String → Listing → Option Listing
  | [], _ => none
  | name :: inner, l =>
    match l.find? name, inner with
    | none, _ => none
    | some _, [] => some (l.erase name)
    | some (.file _), _ :: _ => none
    | some (.dir sub), _ :: _ => (sub.remove? inner).map fun sub => l.set name (.dir sub)

end Listing

/-- The entries of a directory are proper; a file's content may be anything. -/
def Node.Proper : Node → Prop
  | file _ => True
  | dir l => l.Proper

namespace Listing

@[simp] theorem names_cons (name : String) (node : Node) (rest : Listing) :
    (cons name node rest).names = name :: rest.names := by
  cases node <;> rfl

theorem proper_cons {name : String} {node : Node} {rest : Listing} :
    (cons name node rest).Proper ↔
      Plain name ∧ name ∉ rest.names ∧ node.Proper ∧ rest.Proper := by
  cases node <;> simp [cons, Proper, Node.Proper]

theorem mem_names_set {name n : String} {node : Node} {l : Listing} :
    n ∈ (l.set name node).names ↔ n = name ∨ n ∈ l.names := by
  induction l with
  | nil => simp [set, names]
  | file m content rest ih =>
    by_cases h : m = name <;> simp [set, names, h, ih]
    grind
  | dir m sub rest _ ih =>
    by_cases h : m = name <;> simp [set, names, h, ih]
    grind

theorem proper_set {name : String} {node : Node} {l : Listing} (hl : l.Proper)
    (hname : Plain name) (hnode : node.Proper) : (l.set name node).Proper := by
  induction l with
  | nil => exact proper_cons.2 ⟨hname, by simp [names], hnode, trivial⟩
  | file m content rest ih =>
    obtain ⟨hm, hfresh, hrest⟩ := hl
    by_cases h : m = name
    · simp only [set, h, if_true]
      exact proper_cons.2 ⟨hname, h ▸ hfresh, hnode, hrest⟩
    · simp only [set, h, if_false]
      exact ⟨hm, by simp [mem_names_set, h, hfresh], ih hrest⟩
  | dir m sub rest _ ih =>
    obtain ⟨hm, hfresh, hsub, hrest⟩ := hl
    by_cases h : m = name
    · simp only [set, h, if_true]
      exact proper_cons.2 ⟨hname, h ▸ hfresh, hnode, hrest⟩
    · simp only [set, h, if_false]
      exact ⟨hm, by simp [mem_names_set, h, hfresh], hsub, ih hrest⟩

theorem mem_of_mem_names_erase {name n : String} {l : Listing} (h : n ∈ (l.erase name).names) :
    n ∈ l.names := by
  induction l with
  | nil => exact h
  | file m content rest ih => simp only [erase] at h; split at h <;> simp_all [names]; grind
  | dir m sub rest _ ih => simp only [erase] at h; split at h <;> simp_all [names]; grind

theorem proper_erase {name : String} {l : Listing} (hl : l.Proper) : (l.erase name).Proper := by
  induction l with
  | nil => trivial
  | file m content rest ih =>
    obtain ⟨hm, hfresh, hrest⟩ := hl
    simp only [erase]
    split
    · exact hrest
    · exact ⟨hm, fun h => hfresh (mem_of_mem_names_erase h), ih hrest⟩
  | dir m sub rest _ ih =>
    obtain ⟨hm, hfresh, hsub, hrest⟩ := hl
    simp only [erase]
    split
    · exact hrest
    · exact ⟨hm, fun h => hfresh (mem_of_mem_names_erase h), hsub, ih hrest⟩

theorem proper_of_find? {name : String} {node : Node} {l : Listing} (hl : l.Proper)
    (h : l.find? name = some node) : node.Proper := by
  induction l with
  | nil => simp [find?] at h
  | file m content rest ih =>
    simp only [find?] at h
    split at h
    · exact Option.some.inj h ▸ trivial
    · exact ih hl.2.2 h
  | dir m sub rest _ ih =>
    simp only [find?] at h
    split at h
    · exact Option.some.inj h ▸ hl.2.2.1
    · exact ih hl.2.2.2 h

theorem proper_of_put? {node : Node} (hnode : node.Proper) {path : List String}
    (hpath : ∀ name ∈ path, Plain name) {l l' : Listing} (hl : l.Proper)
    (h : l.put? node path = some l') : l'.Proper := by
  fun_induction put? node path l generalizing l' with
  | case1 | case3 | case6 | case7 => cases h
  | case2 | case4 => exact Option.some.inj h ▸ proper_set hl (hpath _ (by simp)) hnode
  | case5 => exact Option.some.inj h ▸ hl
  | case8 l name next inner _ ih =>
    obtain ⟨sub, hsub, rfl⟩ := Option.map_eq_some_iff.1 h
    exact proper_set hl (hpath _ (by simp)) (ih (fun n hn => hpath n (.tail _ hn)) trivial hsub)
  | case9 l name sub next inner hfound ih =>
    obtain ⟨sub', hsub, rfl⟩ := Option.map_eq_some_iff.1 h
    exact proper_set hl (hpath _ (by simp))
      (ih (fun n hn => hpath n (.tail _ hn)) (proper_of_find? hl hfound) hsub)

theorem proper_of_remove? {path : List String} {l l' : Listing}
    (hpath : ∀ name ∈ path, Plain name) (hl : l.Proper)
    (h : l.remove? path = some l') : l'.Proper := by
  fun_induction remove? path l generalizing l' with
  | case1 | case2 | case4 => cases h
  | case3 => exact Option.some.inj h ▸ proper_erase hl
  | case5 l name sub next inner hfound ih =>
    obtain ⟨sub', hsub, rfl⟩ := Option.map_eq_some_iff.1 h
    exact proper_set hl (hpath _ (by simp))
      (ih (fun n hn => hpath n (.tail _ hn)) (proper_of_find? hl hfound) hsub)

end Listing

/-- The files and directories below a root. -/
structure FileTree where
  root : Listing
  proper : root.Proper

namespace FileTree

/-- Nothing below the root. -/
def empty : FileTree := ⟨.nil, trivial⟩

/-- The file or directory at a location. -/
def node? (t : FileTree) (l : Location) : Option Node := t.root.descend? l.reverse

/-- Whether a location is a directory. -/
def isDir (t : FileTree) (l : Location) : Bool := (t.node? l).any Node.isDir

/-- Puts a file or an empty directory at a location, making the directories on the way. Nothing is
put where a name is not plain or something else is in the way. -/
def put? (t : FileTree) (l : Location) (content : Option ByteArray) : Option FileTree :=
  let node : Node := content.elim (.dir .nil) .file
  if hplain : ∀ name ∈ l.reverse, Plain name then
    match h : t.root.put? node l.reverse with
    | some root =>
      some ⟨root, Listing.proper_of_put? (by cases content <;> trivial) hplain t.proper h⟩
    | none => none
  else none

/-- Takes away what is at a location, with all below it. -/
def remove? (t : FileTree) (l : Location) : Option FileTree :=
  if hplain : ∀ name ∈ l.reverse, Plain name then
    match h : t.root.remove? l.reverse with
    | some root => some ⟨root, Listing.proper_of_remove? hplain t.proper h⟩
    | none => none
  else none

end FileTree

end EditorConfig
