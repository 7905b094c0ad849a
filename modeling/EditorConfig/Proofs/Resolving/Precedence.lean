import EditorConfig.Proofs.Path
import EditorConfig.Proofs.Properties
import EditorConfig.Proofs.Resolving.Walk
/-!
# Precedence

The sections that apply to a target, file by file from the outside inwards and in the order of each
file, decide every property: the last of them that declares a key gives its value, the first gives
its place.
-/
namespace EditorConfig

/-- A section applies to a target below its directory when its pattern compiles and matches the
names that lead from the directory to the target. -/
def Section.Applies [Glob.Engine] (limit : Nat) (dir : Path) (target : Location) (s : Section) :
    Prop :=
  ∃ (names : List String) (g : Glob), target.components = dir.components ++ names.map .name ∧
    Glob.compile s.pattern limit = .ok g ∧ g.isMatch (Location.joined names) = true

namespace Section
variable [Glob.Engine]

/-- Whether a section applies, as the path and the pattern tell. -/
def applies (limit : Nat) (dir : Path) (target : Location) (s : Section) : Bool :=
  match target.relativeTo? dir, Glob.compile s.pattern limit with
  | some relative, .ok g => g.isMatch relative
  | _, _ => false

theorem applies_iff {limit : Nat} {dir : Path} {target : Location} {s : Section} :
    s.applies limit dir target = true ↔ s.Applies limit dir target := by
  unfold applies Applies
  constructor
  · intro h
    split at h
    · next hrel hglob =>
      obtain ⟨names, hl, rfl⟩ := Location.relativeTo?_eq_some_iff.mp hrel
      exact ⟨names, _, hl, hglob, h⟩
    · cases h
  · rintro ⟨names, g, hl, hglob, hmatch⟩
    rw [Location.relativeTo?_eq_some_iff.mpr ⟨names, hl, rfl⟩, hglob]
    exact hmatch

instance (limit : Nat) (dir : Path) (target : Location) (s : Section) :
    Decidable (s.Applies limit dir target) := decidable_of_iff _ applies_iff

end Section

/-- The sections of some files that apply to a target, in the order of the files. -/
def ConfigFile.applicable [Glob.Engine] (limit : Nat) (target : Location)
    (files : List ConfigFile) : List Section :=
  files.flatMap fun f => f.sections.filter fun s => s.Applies limit f.directory target

namespace CompiledConfig
variable [Glob.Engine]

/-- A glob stays with the section it was compiled from, also behind one that did not compile. -/
theorem matching_ofFile (limit : Nat) (f : ConfigFile) (relative : String) :
    (ofFile limit f).matching relative = f.sections.filter fun s =>
      match Glob.compile s.pattern limit with
      | .ok g => g.isMatch relative
      | .error _ => false := by
  unfold matching ofFile
  simp only
  induction f.sections with
  | nil => rfl
  | cons s rest ih =>
    rw [List.map_cons, List.zip_cons_cons, List.filterMap_cons, ih, List.filter_cons]
    cases Glob.compile s.pattern limit with
    | error e => simp
    | ok g => by_cases hm : g.isMatch relative = true <;> simp [hm]

end CompiledConfig

namespace Resolver
variable [Glob.Engine]

theorem matched_hits (limit : Nat) (target : Location) (files : List ConfigFile) :
    (hits (files.map (CompiledConfig.ofFile limit)) target).map Hit.matched =
      ConfigFile.applicable limit target files := by
  unfold hits ConfigFile.applicable
  rw [List.flatMap_map, List.map_flatMap]
  congr 1
  funext f
  have filtered : ∀ s : Section, decide (s.Applies limit f.directory target) =
      s.applies limit f.directory target := by
    intro s
    rw [Bool.eq_iff_iff, decide_eq_true_iff, Section.applies_iff]
  simp only [filtered]
  have dir : (CompiledConfig.ofFile limit f).file.directory = f.directory := rfl
  rw [dir]
  cases hrel : target.relativeTo? f.directory with
  | none => simp [Section.applies, hrel]
  | some relative =>
    have filters : ∀ s : Section, s.applies limit f.directory target =
        match Glob.compile s.pattern limit with
        | .ok g => g.isMatch relative
        | .error _ => false := by
      intro s
      rw [Section.applies, hrel]
      cases Glob.compile s.pattern limit <;> rfl
    simp only [CompiledConfig.matching_ofFile, List.map_map, filters]
    exact List.map_id _

end Resolver

namespace Properties

/-- The properties of some sections, merged one after another. -/
def ofSections (sections : List Section) : Properties :=
  sections.foldl (fun p s => p.merge s.properties) empty

theorem get?_ofSections (sections : List Section) (k : String) :
    (ofSections sections).get? k =
      sections.reverse.findSome? fun s => s.properties.get? k := by
  have run : ∀ p : Properties, (sections.foldl (fun p s => p.merge s.properties) p).get? k =
      (sections.reverse.findSome? fun s => s.properties.get? k).or (p.get? k) := by
    induction sections with
    | nil => exact fun _ => rfl
    | cons s rest ih =>
      intro p
      rw [List.foldl_cons, ih, get?_merge, List.reverse_cons, List.findSome?_append,
        Option.or_assoc]
      simp
  rw [ofSections, run, get?_empty, Option.or_none]

/-- The last section that declares a key gives its value. -/
theorem get?_ofSections_eq_some_iff {sections : List Section} {k v : String} :
    (ofSections sections).get? k = some v ↔
      ∃ before s after, sections = before ++ s :: after ∧ s.properties.get? k = some v ∧
        ∀ s' ∈ after, s'.properties.get? k = none := by
  rw [get?_ofSections, List.findSome?_eq_some_iff]
  constructor
  · rintro ⟨after, s, before, hsplit, hv, hafter⟩
    refine ⟨before.reverse, s, after.reverse, ?_, hv, ?_⟩
    · rw [List.reverse_eq_iff] at hsplit
      simp [hsplit]
    · exact fun s' hs' => hafter s' (List.mem_reverse.mp hs')
  · rintro ⟨before, s, after, rfl, hv, hafter⟩
    refine ⟨after.reverse, s, before.reverse, by simp, hv, ?_⟩
    exact fun s' hs' => hafter s' (List.mem_reverse.mp hs')

end Properties

namespace Resolver

section
variable [Glob.Engine]

theorem merge_hits (limit : Nat) (target : Location) (files : List ConfigFile) :
    merge (hits (files.map (CompiledConfig.ofFile limit)) target) =
      Properties.ofSections (ConfigFile.applicable limit target files) := by
  rw [← matched_hits, Properties.ofSections, List.foldl_map]
  rfl

theorem resolve_new {options : ResolverOptions} {fs : FileSystem} {target : Path}
    {l : Location} (h : fs.locate target = .ok l) :
    ((new options).resolve fs target).answer =
      Properties.ofSections (ConfigFile.applicable options.maxAlternatives l
        ((new options).configChain fs target).answer) := by
  rw [answer_resolve h, chain_new, merge_hits, configChain_new h]

end

end Resolver

end EditorConfig
