import EditorConfig.Ignore.Layer
import EditorConfig.Proofs.FileSystem
import EditorConfig.Proofs.Path.Joins
/-!
# Where nothing is ignored

A directory has rules from its own file, from the file that is kept in the repository and from the
data of the repository. Where none of these can be read, all layers are bare, and bare layers decide
nothing about any path.
-/
namespace EditorConfig

/-- No rules can be read anywhere: no directory has a file of its own rules or of rules kept in the
repository, no repository has rules, and no file that names a repository kept elsewhere leads to the
rules of one. -/
structure FileSystem.Unruled (fs : FileSystem) : Prop where
  own : ∀ l content, fs.tree.node? (Ignore.Layer.ownName :: l) ≠ some (.file content)
  shared : ∀ l content, fs.tree.node? (Ignore.Layer.sharedName :: l) ≠ some (.file content)
  excluded : ∀ l content,
    fs.tree.node? ("exclude" :: "info" :: Ignore.Layer.repositoryName :: l) ≠ some (.file content)
  linked : ∀ l entries mark dir place, fs.tree.node? l = some (.dir entries) →
    entries.find? Ignore.Layer.repositoryName = some (.file mark) →
      Ignore.Layer.repositoryData? fs dir entries = some place →
        ∀ content, fs.read (place.join Ignore.Layer.excludedName) ≠ .ok content

namespace Listing
variable {l sub : Listing} {name : String} {names : List String} {content : ByteArray}

/-- The names of all files, here and in all directories below. -/
def fileNames : Listing → List String
  | nil => []
  | file name _ rest => name :: rest.fileNames
  | dir _ sub rest => sub.fileNames ++ rest.fileNames

theorem mem_fileNames_of_find? (found : l.find? name = some (.file content)) :
    name ∈ l.fileNames := by
  induction l with
  | nil => cases found
  | file n bytes rest ih =>
    rw [find?] at found
    split at found
    · next same => exact same ▸ List.mem_cons_self
    · exact List.mem_cons_of_mem _ (ih found)
  | dir n sub rest _ ih =>
    rw [find?] at found
    split at found
    · cases found
    · exact List.mem_append_right _ (ih found)

theorem fileNames_subset (found : l.find? name = some (.dir sub)) :
    sub.fileNames ⊆ l.fileNames := by
  induction l with
  | nil => cases found
  | file n bytes rest ih =>
    rw [find?] at found
    split at found
    · cases found
    · exact fun s hs => List.mem_cons_of_mem _ (ih found hs)
  | dir n inside rest _ ih =>
    rw [find?] at found
    split at found
    · obtain rfl := Node.dir.inj (Option.some.inj found)
      exact List.subset_append_left _ _
    · exact fun s hs => List.mem_append_right _ (ih found hs)

theorem mem_fileNames (leads : l.descend? (names ++ [name]) = some (.file content)) :
    name ∈ l.fileNames := by
  induction names generalizing l with
  | nil =>
    rw [List.nil_append, descend?_cons, Node.descend?_nil, Option.bind_fun_some] at leads
    exact mem_fileNames_of_find? leads
  | cons n names ih =>
    rw [List.cons_append, descend?_cons] at leads
    obtain ⟨node, entry, onward⟩ := Option.bind_eq_some_iff.mp leads
    cases node with
    | file bytes => simp [Node.descend?] at onward
    | dir sub => exact fileNames_subset entry (ih onward)

end Listing

namespace FileSystem
open EditorConfig.Path (IsName)
variable {fs : FileSystem} {p : Path} {l : Location} {name : String}

/-- Nothing is ignored where no file has a name that rules are looked for by. -/
theorem Unruled.of_names (free : ∀ name ∈ [".ignore", ".gitignore", ".git", "exclude"],
    name ∉ fs.tree.root.fileNames) : fs.Unruled := by
  have absent (name : String) (rule : name ∈ [".ignore", ".gitignore", ".git", "exclude"])
      (l : Location) (content : ByteArray) : fs.tree.node? (name :: l) ≠ some (.file content) := by
    intro there
    rw [FileTree.node?, List.reverse_cons] at there
    exact free name rule (Listing.mem_fileNames there)
  refine ⟨absent _ (by decide), absent _ (by decide), fun l => absent _ (by decide) _, ?_⟩
  intro l entries mark dir place there found
  exact (absent ".git" (by decide) l mark ((FileTree.node?_cons there).trans found)).elim

theorem exists_of_find_join (hname : IsName name) (found : fs.find (p.join name) = .ok l) :
    ∃ outer, l = name :: outer ∧ (p.text ≠ "" → fs.find p = .ok outer) := by
  obtain ⟨outer, entries, entered, rfl, -, -⟩ := (find_join hname).mp found
  exact ⟨outer, rfl, fun named => find_eq_ok_iff.mpr ⟨named, entered.leads⟩⟩

theorem read_eq_ok_iff {content : ByteArray} : fs.read p = .ok content ↔
    ∃ l, fs.find p = .ok l ∧ fs.tree.node? l = some (.file content) := by
  rw [← node_eq_ok_iff, read]
  cases fs.node p with
  | error e => simp
  | ok node => cases node <;> simp

end FileSystem

namespace Ignore.Layer
variable {fs : FileSystem} {l : Location} {entries : Listing} {layer : Layer}

/-- The layer has no rules. -/
structure Bare (layer : Layer) : Prop where
  own : layer.own = []
  shared : layer.shared = []
  excluded : layer.excluded = []

/-- What the path to the rules of a repository leads to stands behind the three names. -/
theorem exists_of_find_excluded {p : Path}
    (found : fs.find ((p.join repositoryName).join excludedName) = .ok l) :
    ∃ outer, l = "exclude" :: "info" :: repositoryName :: outer := by
  have plain : Plain "exclude" ∧ Plain "info" ∧ Plain repositoryName := by decide
  have file := FileSystem.isName_of_plain plain.1
  have info := FileSystem.isName_of_plain plain.2.1
  have data := FileSystem.isName_of_plain plain.2.2
  have parts : excludedName = "info" ++ "/" ++ "exclude" := by decide
  rw [parts, ← Path.join_join _ info file.relative] at found
  obtain ⟨inside, rfl, behind⟩ := FileSystem.exists_of_find_join file found
  obtain ⟨middle, rfl, farther⟩ :=
    FileSystem.exists_of_find_join info (behind (fs.join_nonempty _ info))
  obtain ⟨outer, rfl, -⟩ :=
    FileSystem.exists_of_find_join data (farther (fs.join_nonempty _ data))
  exact ⟨outer, rfl⟩

theorem rulesAt_eq_nil {p : Path} (absent : ∀ content, fs.read p ≠ .ok content) :
    rulesAt fs p = ([], []) := by
  unfold rulesAt
  split
  · next content read => exact (absent content read).elim
  · rfl

theorem rulesIn_eq_nil {dir : Path} {name : String}
    (absent : ∀ content, entries.find? name ≠ some (.file content)) :
    rulesIn dir entries name = ([], []) := by
  unfold rulesIn
  split
  · next content found => exact (absent content found).elim
  · rfl

/-- Where nothing is ignored, the data of no repository holds rules. -/
theorem rulesAt_repository (h : fs.Unruled) (there : fs.tree.node? l = some (.dir entries))
    {dir place : Path} (data : repositoryData? fs dir entries = some place) :
    rulesAt fs (place.join excludedName) = ([], []) := by
  refine rulesAt_eq_nil fun content read => ?_
  have elsewhere (own : place = dir.join repositoryName) : False := by
    rw [own, FileSystem.read_eq_ok_iff] at read
    obtain ⟨_, found, file⟩ := read
    obtain ⟨outer, rfl⟩ := exists_of_find_excluded found
    exact h.excluded outer content file
  cases mark : entries.find? repositoryName with
  | none =>
    simp only [repositoryData?, mark] at data
    exact elsewhere (Option.some.inj data).symm
  | some node =>
    cases node with
    | file bytes => exact h.linked l entries bytes dir place there mark data content read
    | dir inside =>
      simp only [repositoryData?, mark] at data
      exact elsewhere (Option.some.inj data).symm

/-- The directories of a tree without rules have bare layers, of which nothing is wrong. -/
theorem ofDirectory_bare (h : fs.Unruled) (there : fs.tree.node? l = some (.dir entries))
    (dir : Path) : (ofDirectory fs dir entries).1.Bare ∧ (ofDirectory fs dir entries).2 = [] := by
  have own : rulesIn dir entries ownName = ([], []) :=
    rulesIn_eq_nil fun content found =>
      h.own l content ((FileTree.node?_cons there).trans found)
  have shared : rulesIn dir entries sharedName = ([], []) :=
    rulesIn_eq_nil fun content found =>
      h.shared l content ((FileTree.node?_cons there).trans found)
  unfold ofDirectory
  rw [own, shared]
  cases data : repositoryData? fs dir entries with
  | none => exact ⟨⟨rfl, rfl, rfl⟩, rfl⟩
  | some place =>
    have excluded := rulesAt_repository h there data
    simp only [excluded]
    exact ⟨⟨rfl, rfl, rfl⟩, rfl⟩

theorem mem_of_mem_upToRepository {α : Type} {layers : List (Layer × α)} {layer : Layer × α}
    (h : layer ∈ upToRepository layers) : layer ∈ layers := by
  induction layers with
  | nil => cases h
  | cons first outer ih =>
    rw [upToRepository] at h
    split at h
    · exact List.mem_singleton.mp h ▸ List.mem_cons_self
    · rcases List.mem_cons.mp h with rfl | h
      · exact List.mem_cons_self
      · exact List.mem_cons_of_mem _ (ih h)

/-- Bare layers decide nothing. -/
theorem judge_bare {layers : List (Layer × List Char)} (bare : ∀ layer ∈ layers, layer.1.Bare)
    (isDir : Bool) : judge layers isDir = none := by
  have nothing (rules : Layer → List Rule) (some : List (Layer × List Char))
      (empty : ∀ layer ∈ some, rules layer.1 = []) :
      some.findSome? (fun layer => layer.1.decision rules layer.2 isDir) = none := by
    rw [List.findSome?_eq_none_iff]
    intro layer member
    rw [decision, empty layer member]
    rfl
  have inside : ∀ layer ∈ (if layers.any fun layer => layer.1.isRepository then
      upToRepository layers else []), layer.1.Bare := by
    intro layer member
    split at member
    · exact bare layer (mem_of_mem_upToRepository member)
    · cases member
  have first := nothing own layers fun layer member => (bare layer member).own
  have second := nothing Layer.shared _ fun layer member => (inside layer member).shared
  have third := nothing Layer.excluded _ fun layer member => (inside layer member).excluded
  change Option.or _ (Option.or _ _) = none
  exact Option.or_eq_none_iff.mpr ⟨first, Option.or_eq_none_iff.mpr ⟨second, third⟩⟩

end Ignore.Layer

end EditorConfig
