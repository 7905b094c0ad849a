import EditorConfig.Proofs.Path
import EditorConfig.Proofs.Resolving.Walk
/-!
# Locality

The walk for a target goes outwards until it meets a root file. Whether it goes on behind a
directory is decided by what that directory holds, so two trees that hold the same files of the
looked-for name from the innermost root file down to the target send it the same way. Nothing else
in them can show in an answer.
-/
namespace EditorConfig

namespace ConfigFile

/-- A directory holds a root file that loads. -/
def RootInside (name : String) (fs : FileSystem) (dir : Location) : Prop :=
  ∃ f, inside? name fs dir = some f ∧ f.isRoot = true

/-- A directory holds a location, and no directory between the two holds a root file. -/
def Reached (name : String) (fs : FileSystem) (l dir : Location) : Prop :=
  dir ∈ l.ancestors ∧
    ∀ inner ∈ l.ancestors, dir ∈ inner.ancestors → ¬ RootInside name fs inner

end ConfigFile

namespace Location

/-- No directory holds one that holds it. -/
theorem not_mem_ancestors_of_mem {l dir : Location} (h : dir ∈ l.ancestors) :
    l ∉ dir.ancestors := by
  intro back
  obtain ⟨names, hne, hl⟩ := mem_ancestors_iff.mp h
  obtain ⟨names', -, hdir⟩ := mem_ancestors_iff.mp back
  have lengths : l.length = names.length + (names'.length + l.length) := by
    rw [← List.length_append, ← hdir, ← List.length_append, ← hl]
  have positive : 0 < names.length := List.length_pos_iff.mpr hne
  omega

/-- The ancestors in front of one of them are those that it holds. -/
theorem mem_before_iff {l dir inner : Location} {before after : List Location}
    (h : l.ancestors = before ++ dir :: after) :
    inner ∈ before ↔ inner ∈ l.ancestors ∧ dir ∈ inner.ancestors := by
  have order := pairwise_ancestors l
  rw [h, List.pairwise_append, List.pairwise_cons] at order
  obtain ⟨-, ⟨outwards, -⟩, inwards⟩ := order
  rw [h]
  constructor
  · intro hinner
    exact ⟨List.mem_append_left _ hinner, inwards inner hinner dir List.mem_cons_self⟩
  · rintro ⟨hinner, hdir⟩
    rcases List.mem_append.mp hinner with hinner | hinner
    · exact hinner
    · rcases List.mem_cons.mp hinner with rfl | hinner
      · exact absurd hdir (not_mem_ancestors_of_mem hdir)
      · exact absurd (outwards inner hinner) (not_mem_ancestors_of_mem hdir)

end Location

namespace Finding
variable [Glob.Engine]

/-- What is found in a directory depends only on the bytes of the file that is looked for. -/
theorem look_congr {options : ResolverOptions} {fs fs' : FileSystem} {dir : Location}
    (h : (fs.read (dir.path.join options.fileName)).toOption =
      (fs'.read (dir.path.join options.fileName)).toOption) :
    look options fs' dir = look options fs dir := by
  simp only [look, FileSystem.isFile_eq, ← h]
  split
  · next there =>
    -- Both reads give something, and then they give the same.
    obtain ⟨content, hcontent⟩ := Option.isSome_iff_exists.mp there
    have read := FileSystem.toOption_read_eq_some_iff.mp hcontent
    have read' := FileSystem.toOption_read_eq_some_iff.mp (h ▸ hcontent)
    simp only [ConfigFile.load, read, read']
  · rfl

end Finding

namespace Resolver

section
variable [Glob.Engine]

/-- A walk visits exactly the directories that it reaches. -/
theorem mem_visited_iff {options : ResolverOptions} {fs : FileSystem} {l dir : Location} :
    dir ∈ visited (Finding.outcome options fs) l.ancestors ↔
      ConfigFile.Reached options.fileName fs l dir := by
  have stops : ∀ d, ((Finding.outcome options fs d).any fun c => c.file.isRoot) = false ↔
      ¬ ConfigFile.RootInside options.fileName fs d := by
    intro d
    unfold ConfigFile.RootInside
    rw [Finding.outcome_eq, ← Bool.not_eq_true, Option.any_eq_true]
    refine not_congr ⟨?_, ?_⟩
    · rintro ⟨c, hc, hroot⟩
      obtain ⟨f, hf, rfl⟩ := Option.map_eq_some_iff.mp hc
      exact ⟨f, hf, hroot⟩
    · rintro ⟨f, hf, hroot⟩
      exact ⟨_, Option.map_eq_some_iff.mpr ⟨f, hf, rfl⟩, hroot⟩
  rw [visited, mem_upTo_iff, ConfigFile.Reached]
  constructor
  · rintro ⟨before, after, hl, hbefore⟩
    refine ⟨hl ▸ List.mem_append_right _ List.mem_cons_self, ?_⟩
    intro inner hinner hdir
    exact (stops inner).mp (hbefore inner ((Location.mem_before_iff hl).mpr ⟨hinner, hdir⟩))
  · rintro ⟨hdir, noRoot⟩
    obtain ⟨before, after, hl⟩ := List.append_of_mem hdir
    refine ⟨before, after, hl, ?_⟩
    intro inner hinner
    obtain ⟨hanc, hin⟩ := (Location.mem_before_iff hl).mp hinner
    exact (stops inner).mpr (noRoot inner hanc hin)

variable {options : ResolverOptions} {fs fs' : FileSystem}

theorem visit_new_congr {dir : Location}
    (h : (fs.read (dir.path.join options.fileName)).toOption =
      (fs'.read (dir.path.join options.fileName)).toOption) :
    (new options).visit fs' dir = (new options).visit fs dir := by
  have same : Finding.look options fs' dir = Finding.look options fs dir := Finding.look_congr h
  simp [visit, new, same]

theorem walk_new_congr {l : Location}
    (h : ∀ dir, ConfigFile.Reached options.fileName fs l dir →
      (fs.read (dir.path.join options.fileName)).toOption =
        (fs'.read (dir.path.join options.fileName)).toOption) :
    (new options).walk fs' l.ancestors = (new options).walk fs l.ancestors := by
  apply walk_congr
  intro dir hdir
  apply visit_new_congr
  apply h
  exact mem_visited_iff.mp hdir

/-- Two trees that agree on the files of the looked-for name, from the innermost root file of the
first tree down to a target, give the same answers about that target. -/
theorem answers_local (options : ResolverOptions) (fs fs' : FileSystem) (target : Path)
    (located : fs'.locate target = fs.locate target)
    (agree : ∀ l, fs.locate target = .ok l →
      ∀ dir, ConfigFile.Reached options.fileName fs l dir →
        (fs.read (dir.path.join options.fileName)).toOption =
          (fs'.read (dir.path.join options.fileName)).toOption) :
    (new options).resolve fs' target = (new options).resolve fs target ∧
    (new options).rules fs' target = (new options).rules fs target ∧
    (new options).configChain fs' target = (new options).configChain fs target := by
  have walks : ∀ l, fs.locate target = .ok l →
      (new options).walk fs' l.ancestors = (new options).walk fs l.ancestors := by
    intro l hl
    exact walk_new_congr (agree l hl)
  have properties : (new options).resolve fs' target = (new options).resolve fs target :=
    consult_congr located walks
  refine ⟨properties, ?_, consult_congr located walks⟩
  rw [rules, rules, properties]

end

/-- A root file with a file above it. -/
def walled : FileSystem where
  tree :=
    { root := .file ".editorconfig" "[*]\ntab_width = 8\n".toUTF8
        (.dir "sub" (.file ".editorconfig"
          "root = true\n[*.js]\nindent_size = 4\n".toUTF8 .nil) .nil)
      proper := by
        simp only [Listing.Proper, Listing.names]
        decide }
  cwd := []

/-- The same root file with none above it, a target that is there and a file below, which a target
names on its way. -/
def cleared : FileSystem where
  tree :=
    { root := .dir "sub" (.file "a.js" .empty
        (.dir "deep" (.file ".editorconfig" "[*]\nindent_size = 1\n".toUTF8 .nil)
          (.file ".editorconfig" "root = true\n[*.js]\nindent_size = 4\n".toUTF8 .nil))) .nil
      proper := by
        simp only [Listing.Proper, Listing.names]
        decide }
  cwd := ["deep", "sub"]

theorem answers_local_walled :
    let target : Path := ⟨"/sub/deep/../a.js"⟩
    walled.locate target = .ok ["a.js", "sub"] ∧
      cleared.locate target = walled.locate target ∧ walled.tree.root ≠ cleared.tree.root ∧
      (new .default).configChain cleared target = (new .default).configChain walled target ∧
      ((new .default).resolve cleared target).answer.keys = ["indent_size"] := by
  intro target
  have place : Location.fold [] target = ["a.js", "sub"] := by decide +kernel
  have inWalled : walled.locate target = .ok ["a.js", "sub"] := by
    rw [FileSystem.locate_of_isAbsolute (by decide), place]
  have inCleared : cleared.locate target = walled.locate target := by
    rw [FileSystem.locate_of_isAbsolute (by decide), place, inWalled]
  have rooted : ConfigFile.RootInside ".editorconfig" walled ["sub"] := by
    have found : (ConfigFile.inside? ".editorconfig" walled ["sub"]).any
        ConfigFile.isRoot = true := by decide +kernel
    exact (Option.any_eq_true _ _).mp found
  have agree : ∀ l, walled.locate target = .ok l →
      ∀ dir, ConfigFile.Reached ".editorconfig" walled l dir →
        (walled.read (dir.path.join ".editorconfig")).toOption =
          (cleared.read (dir.path.join ".editorconfig")).toOption := by
    intro l hl dir hdir
    obtain rfl : ["a.js", "sub"] = l := Except.ok.inj (inWalled.symm.trans hl)
    rcases List.mem_cons.mp hdir.1 with rfl | houter
    · decide +kernel
    · obtain rfl := List.mem_singleton.mp houter
      exact absurd rooted (hdir.2 ["sub"] (by decide) (by decide))
  have all := answers_local .default walled cleared target inCleared agree
  refine ⟨inWalled, inCleared, by decide +kernel, all.2.2, ?_⟩
  rw [all.1]
  decide +kernel

end Resolver

end EditorConfig
