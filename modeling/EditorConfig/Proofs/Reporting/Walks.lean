import EditorConfig.Proofs.FileSystem
import EditorConfig.Proofs.Resolving.Recasing
import EditorConfig.Walk
/-!
# What a walk reads

A walk reads the files of ignore rules and, of a repository, what leads to its rules. Any other file
may hold anything: the walk finds the same files and meets the same errors.
-/
namespace EditorConfig

/-- The names of the files that a walk reads. -/
def Walk.ruleNames : List String := [".ignore", ".gitignore", ".git", "commondir", "exclude"]

/-- The same files and directories. Only files that no walk reads may differ in their bytes. -/
inductive Listing.Reworded : Listing → Listing → Prop
  | nil : Reworded .nil .nil
  | file {name : String} {content content' : ByteArray} {rest rest' : Listing}
      (same : name ∈ Walk.ruleNames → content' = content) :
      Reworded rest rest' → Reworded (.file name content rest) (.file name content' rest')
  | dir {name : String} {sub sub' rest rest' : Listing} :
      Reworded sub sub' → Reworded rest rest' → Reworded (.dir name sub rest) (.dir name sub' rest')

/-- Two files or two directories that stand at the same place, under a name or at the root. -/
inductive Node.Reworded (name? : Option String) : Node → Node → Prop
  | file {content content' : ByteArray}
      (same : ∀ name ∈ Walk.ruleNames, name? = some name → content' = content) :
      Reworded name? (.file content) (.file content')
  | dir {entries entries' : Listing} (inside : entries.Reworded entries') :
      Reworded name? (.dir entries) (.dir entries')

/-- The same files and directories everywhere. -/
def FileTree.Reworded (t t' : FileTree) : Prop := t.root.Reworded t'.root

/-! ## Trees -/

namespace Listing.Reworded
variable {l l' : Listing}

theorem find? (h : l.Reworded l') (name : String) :
    Option.Rel (Node.Reworded (some name)) (l.find? name) (l'.find? name) := by
  induction h with
  | nil => exact .none
  | @file n content content' rest rest' same _ ih =>
    rw [Listing.find?, Listing.find?]
    split
    · next here =>
      subst here
      refine .some (.file ?_)
      rintro n hn ⟨⟩
      exact same hn
    · exact ih
  | dir inside _ _ ih =>
    rw [Listing.find?, Listing.find?]
    split
    · exact .some (.dir inside)
    · exact ih

theorem descend? (h : l.Reworded l') (names : List String) :
    Option.Rel (Node.Reworded names.getLast?) (l.descend? names) (l'.descend? names) := by
  induction names generalizing l l' with
  | nil => exact .some (.dir h)
  | cons name inner ih =>
    have found := h.find? name
    rw [descend?_cons, descend?_cons]
    generalize l.find? name = node, l'.find? name = node' at found ⊢
    cases found with
    | none => exact .none
    | some here =>
      cases here with
      | file same =>
        cases inner with
        | nil => exact .some (.file same)
        | cons next more => exact .none
      | dir inside =>
        cases inner with
        | nil => exact .some (.dir inside)
        | cons next more => exact ih inside

end Listing.Reworded

namespace FileTree.Reworded
variable {t t' : FileTree}

theorem node? (h : t.Reworded t') (l : Location) :
    Option.Rel (Node.Reworded l.head?) (t.node? l) (t'.node? l) := by
  have down := Listing.Reworded.descend? h l.reverse
  rw [List.getLast?_reverse] at down
  exact down

/-- Both trees have the same shape. -/
theorem sameView (h : t.Reworded t') : SameView (fun _ => ()) t t' := by
  intro l
  have here := h.node? l
  rw [view?, view?]
  generalize t.node? l = node, t'.node? l = node' at here ⊢
  cases here with
  | none => rfl
  | some here => cases here <;> rfl

end FileTree.Reworded

/-! ## Writing over a file -/

namespace Listing
variable {l l' : Listing} {name : String} {node node' : Node} {path : List String}
  {content now : ByteArray}

theorem Reworded.refl (l : Listing) : l.Reworded l := by
  induction l with
  | nil => exact .nil
  | file name content rest ih => exact .file (fun _ => rfl) ih
  | dir name sub rest ihSub ih => exact .dir ihSub ih

theorem Reworded.cons {rest rest' : Listing} (here : Node.Reworded (some name) node node')
    (others : rest.Reworded rest') : (cons name node rest).Reworded (cons name node' rest') := by
  cases here with
  | file same => exact .file (fun rule => same name rule rfl) others
  | dir inside => exact .dir inside others

theorem Reworded.set (found : l.find? name = some node)
    (here : Node.Reworded (some name) node node') : l.Reworded (l.set name node') := by
  induction l using entriesInduction with
  | nil => cases found
  | cons n old rest ih =>
    rw [find?_cons] at found
    rw [set_cons]
    split at found
    · next same =>
      obtain rfl := Option.some.inj found
      rw [if_pos same, same]
      exact .cons here (.refl rest)
    · next other =>
      rw [if_neg other]
      refine .cons ?_ (ih found)
      cases old with
      | file content => exact .file fun _ _ _ => rfl
      | dir sub => exact .dir (.refl sub)

theorem reworded_of_put? (file : l.descend? path = some (.file content))
    (free : ∀ name ∈ path.getLast?, name ∉ Walk.ruleNames)
    (written : l.put? (.file now) path = some l') : l.Reworded l' := by
  induction path generalizing l l' with
  | nil => cases written
  | cons name inner ih =>
    rw [descend?_cons] at file
    cases found : l.find? name with
    | none => simp [found] at file
    | some node =>
      rw [found, Option.bind_some] at file
      cases node with
      | file old =>
        obtain rfl : inner = [] := by
          by_contra below
          simp [Node.descend?, below] at file
        simp only [put?, found, Node.isDir, Bool.false_eq_true, if_false] at written
        obtain rfl := Option.some.inj written
        refine .set found (.file fun n rule here => ?_)
        exact (free n here rule).elim
      | dir sub =>
        have below : inner ≠ [] := by
          rintro rfl
          cases file
        rw [put?_inside found below] at written
        obtain ⟨sub', hsub, rfl⟩ := Option.map_eq_some_iff.mp written
        refine .set found (.dir (ih file ?_ hsub))
        rw [List.getLast?_cons] at free
        cases last : inner.getLast? with
        | none => simp
        | some n => simpa [last] using free

end Listing

/-- Any file that no walk reads may be written over. -/
theorem FileTree.reworded_of_put? {t t' : FileTree} {name : String} {l : Location}
    {content now : ByteArray} (file : t.node? (name :: l) = some (.file content))
    (free : name ∉ Walk.ruleNames) (written : t.put? (name :: l) (some now) = some t') :
    t.Reworded t' := by
  refine Listing.reworded_of_put? file ?_ (put?_eq_some_iff.mp written).2
  simpa using free

/-! ## Paths that end in a name -/

namespace FileSystem

/-- What a path leads to whose last piece is a name goes by that name. -/
theorem head?_of_walk {t : FileTree} {here l : Location} {pieces : List (List Char)} {name : String}
    (hname : Path.IsName name) (h : walk t here (pieces ++ [name.toList]) = .ok l) :
    l.head? = some name := by
  obtain ⟨between, -, behind⟩ := walk_append.mp h
  obtain ⟨entries, -, rfl, -⟩ := (walk_name hname).mp behind
  rfl

end FileSystem

/-- The text of a path is a name or ends with one behind a separator. -/
def Path.EndsWith (p : Path) (name : String) : Prop :=
  p.text = name ∨ ∃ front, p.text.toList = front ++ '/' :: name.toList

theorem Path.endsWith_join {n name : String} (p : Path) (relative : isAbsolute ⟨n⟩ = false)
    (h : EndsWith ⟨n⟩ name) : (p.join n).EndsWith name := by
  have behind : ∀ front, EndsWith ⟨String.ofList (front ++ '/' :: n.toList)⟩ name := by
    intro front
    rcases h with rfl | ⟨inner, hn⟩
    · exact .inr ⟨front, String.toList_ofList⟩
    · exact .inr ⟨front ++ '/' :: inner, by simp [show n.toList = _ from hn]⟩
  rcases p.join_cases relative with ⟨-, joined⟩ | ⟨front, -, joined⟩ | ⟨-, joined⟩
  · exact joined ▸ h
  · exact joined ▸ behind front
  · exact joined ▸ behind p.text.toList

namespace FileSystem

theorem exists_pieces (fs : FileSystem) {p : Path} {name : String} (hname : Path.IsName name)
    (h : p.EndsWith name) : ∃ pieces, (fs.start p).2 = pieces ++ [name.toList] := by
  rcases h with h | ⟨front, h⟩
  · obtain rfl : p = ⟨name⟩ := congrArg Path.mk h
    exact ⟨[], by rw [fs.start_name hname]; rfl⟩
  · obtain rfl : p = ⟨String.ofList (front ++ '/' :: name.toList)⟩ := Path.ext_toList (by simp [h])
    by_cases root : front = []
    · subst root
      exact ⟨[], by rw [List.nil_append, fs.start_separator hname.no_separator]; rfl⟩
    · exact ⟨_, by rw [fs.start_behind root hname.no_separator]⟩

end FileSystem

theorem Walk.isName_rule {name : String} (rule : name ∈ ruleNames) : Path.IsName name := by
  simp only [ruleNames, List.mem_cons, List.not_mem_nil, or_false] at rule
  rcases rule with rfl | rfl | rfl | rfl | rfl <;>
    exact ⟨by decide, by decide, by decide, by decide⟩

namespace FileTree.Reworded
variable {t t' : FileTree} {entries entries' : Listing} {cwd : Location} {name : String}

/-! ## Rules -/

/-- The files that rules are read from are the same. -/
theorem toOption_read (h : t.Reworded t') (cwd : Location) {p : Path}
    (rule : name ∈ Walk.ruleNames) (ends : p.EndsWith name) :
    (FileSystem.read ⟨t', cwd⟩ p).toOption = (FileSystem.read ⟨t, cwd⟩ p).toOption := by
  have hname := Walk.isName_rule rule
  rw [FileSystem.toOption_read, FileSystem.toOption_read, h.sameView.find]
  cases found : FileSystem.find ⟨t, cwd⟩ p with
  | error e => rfl
  | ok l =>
    obtain ⟨pieces, hpieces⟩ := FileSystem.exists_pieces ⟨t, cwd⟩ hname ends
    have last : l.head? = some name := by
      unfold FileSystem.find at found
      split at found
      · cases found
      · split at found
        · cases found
        · rw [hpieces] at found
          exact FileSystem.head?_of_walk hname found
    have here := h.node? l
    simp only [Except.toOption, Option.bind_some, view?]
    generalize t.node? l = node, t'.node? l = node' at here ⊢
    cases here with
    | none => rfl
    | some here =>
      cases here with
      | file same =>
        rw [same name rule last]
      | dir inside => rfl

end FileTree.Reworded

namespace Ignore.Layer
variable {t t' : FileTree} {entries entries' : Listing} {name : String}

theorem rulesIn_reworded (dir : Path) (inside : entries.Reworded entries')
    (rule : name ∈ Walk.ruleNames) : rulesIn dir entries' name = rulesIn dir entries name := by
  have found := inside.find? name
  unfold rulesIn
  generalize entries.find? name = node, entries'.find? name = node' at found ⊢
  cases found with
  | none => rfl
  | some here =>
    cases here with
    | file same => rw [same name rule rfl]
    | dir inside => rfl

theorem rulesAt_reworded (h : t.Reworded t') (cwd : Location) {p : Path}
    (rule : name ∈ Walk.ruleNames) (ends : p.EndsWith name) :
    rulesAt ⟨t', cwd⟩ p = rulesAt ⟨t, cwd⟩ p := by
  have whole : ∀ fs : FileSystem,
      rulesAt fs p = (fs.read p).toOption.elim ([], []) (readRules p) := by
    intro fs
    unfold rulesAt
    cases fs.read p <;> rfl
  rw [whole, whole, h.toOption_read cwd rule ends]

theorem repositoryData?_reworded (h : t.Reworded t') (cwd : Location) (dir : Path)
    (inside : entries.Reworded entries') :
    repositoryData? ⟨t', cwd⟩ dir entries' = repositoryData? ⟨t, cwd⟩ dir entries := by
  have shared : ∀ place : Path, (FileSystem.read ⟨t', cwd⟩ (place.join "commondir")).toOption =
      (FileSystem.read ⟨t, cwd⟩ (place.join "commondir")).toOption := fun place =>
    h.toOption_read cwd (by decide) (place.endsWith_join (by decide) (.inl rfl))
  have found := inside.find? repositoryName
  unfold repositoryData?
  generalize entries.find? repositoryName = node, entries'.find? repositoryName = node' at found ⊢
  cases found with
  | none => rfl
  | some here =>
    cases here with
    | dir inside => rfl
    | file same =>
      rw [same repositoryName (by decide) rfl]
      simp only [shared]

/-- The layer of a directory comes from its rules. -/
theorem ofDirectory_reworded (h : t.Reworded t') (cwd : Location) (dir : Path)
    (inside : entries.Reworded entries') :
    ofDirectory ⟨t', cwd⟩ dir entries' = ofDirectory ⟨t, cwd⟩ dir entries := by
  have ends : Path.EndsWith ⟨excludedName⟩ "exclude" := .inr ⟨"info".toList, by decide⟩
  have excluded : ∀ place : Path, rulesAt ⟨t', cwd⟩ (place.join excludedName) =
      rulesAt ⟨t, cwd⟩ (place.join excludedName) := fun place =>
    rulesAt_reworded h cwd (by decide) (place.endsWith_join (by decide) ends)
  have marked : (entries'.find? repositoryName).isSome = (entries.find? repositoryName).isSome := by
    have found := inside.find? repositoryName
    generalize entries.find? repositoryName = node, entries'.find? repositoryName = node' at found ⊢
    cases found <;> rfl
  unfold ofDirectory
  rw [rulesIn_reworded dir inside (by decide), rulesIn_reworded dir inside (by decide),
    repositoryData?_reworded h cwd dir inside, marked]
  simp only [excluded]

end Ignore.Layer

/-! ## Walks -/

namespace Walk
variable {t t' : FileTree} {entries entries' : Listing}

/-- By induction on the entries, which stand in the same order. -/
theorem below_reworded (h : t.Reworded t') (f : Frame) (cwd : Location) (inner : List Ignore.Layer)
    (dir : Path) (inside : entries.Reworded entries') :
    below f ⟨t', cwd⟩ inner dir entries' = below f ⟨t, cwd⟩ inner dir entries := by
  induction inside generalizing inner dir with
  | nil => rfl
  | file _ _ ih => rw [below, below, ih]
  | dir within _ ihSub ih =>
    rw [below, below, ih, Ignore.Layer.ofDirectory_reworded h cwd _ within, ihSub]

theorem around_reworded (h : t.Reworded t') (cwd l : Location) :
    around ⟨t', cwd⟩ l = around ⟨t, cwd⟩ l := by
  unfold around
  congr 1
  funext dir found
  have here := h.node? dir
  generalize t.node? dir = node, t'.node? dir = node' at here ⊢
  cases here with
  | none => rfl
  | some here =>
    cases here with
    | file same => rfl
    | dir inside => simp only [Ignore.Layer.ofDirectory_reworded h cwd dir.path inside]

theorem ofPath_reworded (h : t.Reworded t') (cwd : Location) (p : Path) :
    ofPath ⟨t', cwd⟩ p = ofPath ⟨t, cwd⟩ p := by
  unfold ofPath FileSystem.node
  rw [h.sameView.find]
  cases FileSystem.find ⟨t, cwd⟩ p with
  | error cause => rfl
  | ok l =>
    have here := h.node? l
    simp only [around_reworded h]
    generalize t.node? l = node, t'.node? l = node' at here ⊢
    cases here with
    | none => rfl
    | some here =>
      cases here with
      | file same => rfl
      | dir inside =>
        simp only [Ignore.Layer.ofDirectory_reworded h cwd p inside,
          below_reworded h _ cwd _ p inside]

/-- What a walk meets depends on the shape of the tree and on the files of rules only. -/
theorem ofPaths_reworded {fs fs' : FileSystem} (h : fs.tree.Reworded fs'.tree)
    (sameDirectory : fs'.cwd = fs.cwd) (paths : List Path) :
    ofPaths fs' paths = ofPaths fs paths := by
  obtain ⟨t, cwd⟩ := fs
  obtain ⟨t', cwd'⟩ := fs'
  obtain rfl : cwd' = cwd := sameDirectory
  exact List.flatMap_congr fun p _ => ofPath_reworded h cwd' p

end Walk

end EditorConfig
