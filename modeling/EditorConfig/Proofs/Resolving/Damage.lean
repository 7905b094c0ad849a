import EditorConfig.Proofs.Document.Blocks
import EditorConfig.Proofs.FileTree
import EditorConfig.Proofs.Resolving.Chain
import EditorConfig.Proofs.Resolving.Precedence
import Mathlib.Logic.Relation
/-!
# Damage stays local

A configuration file that cannot be used and a section whose pattern does not compile are passed
over. Taking such a file out of the tree leaves every answer as it was, and taking the block of such
a section out of its file leaves the properties of every target as they were, however often both
are done. What is carried along a run of such steps is what a directory contributes: its document,
or of its document only what can show in the properties of a target.
-/
namespace EditorConfig

/-! ## What a directory contributes -/

/-- The document that bytes say, if they are a text that can be read. -/
def Document.ofBytes? (content : ByteArray) : Option Document :=
  (String.fromUTF8? content).bind fun text => (parse text).toOption

/-- Bytes that are no text, or a text with a NUL character. -/
def Document.Unusable (content : ByteArray) : Prop :=
  ∀ text, String.fromUTF8? content = some text → '\x00' ∈ text.toList

/-- A section whose pattern compiles. -/
def Section.compiles [Glob.Engine] (limit : Nat) (s : Section) : Bool :=
  (Glob.compile s.pattern limit).isOk

/-- What of a document can show in the properties of a target. -/
def Document.live [Glob.Engine] (limit : Nat) (d : Document) : Document :=
  { d with sections := d.sections.filter (Section.compiles limit), skipped := [] }

/-- A configuration file with its document seen through `g`. -/
def ConfigFile.through (g : Document → Document) (f : ConfigFile) : ConfigFile :=
  ⟨f.path, g f.document⟩

namespace FileTree

/-- The document of the configuration file in a directory, if it is there and can be used. -/
def document? (t : FileTree) (name : String) (dir : Location) : Option Document :=
  if ∀ s ∈ name :: dir, s.utf8ByteSize ≤ FileSystem.maxNameLength then
    (t.view? (name :: dir)).join.bind Document.ofBytes?
  else none

/-- Takes an unusable configuration file away. -/
def DropsFile (name : String) (t t' : FileTree) : Prop :=
  ∃ dir content, t.node? (name :: dir) = some (.file content) ∧ Document.Unusable content ∧
    t.remove? (name :: dir) = some t'

/-- Takes the whole block of a section whose pattern does not compile out of its file. -/
def DropsSection [Glob.Engine] (name : String) (limit : Nat) (t t' : FileTree) : Prop :=
  ∃ dir content text text', t.node? (name :: dir) = some (.file content) ∧
    String.fromUTF8? content = some text ∧ Document.DropsSection limit text text' ∧
    t.put? (name :: dir) (some text'.toUTF8) = some t'

/-- Takes one piece of damage away. -/
inductive Mends [Glob.Engine] (name : String) (limit : Nat) (t t' : FileTree) : Prop
  | file (h : DropsFile name t t')
  | block (h : DropsSection name limit t t')

/-- Two trees have the same directories and, seen through `g`, the same documents in them. -/
structure Alike {α : Type} (name : String) (g : Document → α) (t t' : FileTree) : Prop where
  isDir : ∀ l, t'.isDir l = t.isDir l
  document? : ∀ dir, (t'.document? name dir).map g = (t.document? name dir).map g

end FileTree

namespace Document

theorem ofBytes?_eq_none {content : ByteArray} (h : Unusable content) :
    ofBytes? content = none := by
  unfold ofBytes?
  cases hread : String.fromUTF8? content with
  | none => rfl
  | some text =>
    obtain ⟨before, after, written, first⟩ := List.eq_append_cons_of_mem (h text hread)
    simp [parse_of_nul written first, Except.toOption]

theorem fromUTF8?_toUTF8 (text : String) : String.fromUTF8? text.toUTF8 = some text :=
  dif_pos text.isValidUTF8

theorem ofBytes?_toUTF8 {text : String} {d : Document} (h : parse text = .ok d) :
    ofBytes? text.toUTF8 = some d := by
  rw [ofBytes?, fromUTF8?_toUTF8, Option.bind_some, h]
  rfl

theorem live_of_dropsSection [Glob.Engine] {limit : Nat} {text text' : String}
    (h : DropsSection limit text text') : ∃ d d', parse text = .ok d ∧ parse text' = .ok d' ∧
      d'.live limit = d.live limit := by
  obtain ⟨d, d', before, after, dead, e, hd, hd', root, broken, whole, left⟩ :=
    parse_of_dropsSection h
  have gone : dead.compiles limit = false := by
    rw [Section.compiles, broken]
    rfl
  refine ⟨d, d', hd, hd', ?_⟩
  simp [live, root, whole, left, gone]

end Document

namespace FileTree
variable {α : Type} {name : String} {limit : Nat} {g : Document → α} {t t' t'' : FileTree}

theorem view?_of_node? {l : Location} {content : ByteArray}
    (h : t.node? l = some (.file content)) : t.view? l = some (some content) := by
  rw [view?, h]
  rfl

namespace Alike

theorem refl (t : FileTree) : Alike name g t t := ⟨fun _ => rfl, fun _ => rfl⟩

theorem trans (h : Alike name g t t') (h' : Alike name g t' t'') : Alike name g t t'' := by
  refine ⟨fun l => ?_, fun dir => ?_⟩
  · rw [h'.isDir, h.isDir]
  · rw [h'.document?, h.document?]

/-- Documents that are the same are the same seen through anything. -/
theorem map (h : Alike name id t t') (g : Document → α) : Alike name g t t' := by
  refine ⟨h.isDir, fun dir => ?_⟩
  have same := h.document? dir
  rw [Option.map_id, id_eq, id_eq] at same
  rw [same]

/-- A configuration file can be changed as long as its document looks the same. -/
theorem of_changed {dir : Location} {content : ByteArray} {now : Option ByteArray}
    (changed : Changed (name :: dir) now t t') (file : t.view? (name :: dir) = some (some content))
    (same : (now.bind Document.ofBytes?).map g = (Document.ofBytes? content).map g) :
    Alike name g t t' := by
  refine ⟨changed.isDir file, fun d => ?_⟩
  unfold FileTree.document?
  split
  · rw [changed (name :: d)]
    by_cases hd : d = dir
    · subst hd
      rw [if_pos rfl, file]
      cases now with
      | none => exact same
      | some bytes => exact same
    · rw [if_neg (by simp [hd])]
  · rfl

end Alike

theorem DropsFile.alike (h : DropsFile name t t') : Alike name id t t' := by
  obtain ⟨dir, content, file, unusable, removed⟩ := h
  have seen := view?_of_node? file
  obtain ⟨there, hthere, changed⟩ := exists_remove? seen
  obtain rfl : there = t' := Option.some.inj (hthere.symm.trans removed)
  apply Alike.of_changed changed seen
  rw [Document.ofBytes?_eq_none unusable]
  rfl

theorem DropsSection.alike [Glob.Engine] (h : DropsSection name limit t t') :
    Alike name (Document.live limit) t t' := by
  obtain ⟨dir, content, text, text', file, read, drops, written⟩ := h
  obtain ⟨d, d', hd, hd', live⟩ := Document.live_of_dropsSection drops
  have seen := view?_of_node? file
  obtain ⟨there, hthere, changed⟩ := exists_put? seen text'.toUTF8
  obtain rfl : there = t' := Option.some.inj (hthere.symm.trans written)
  apply Alike.of_changed changed seen
  have before : Document.ofBytes? content = some d := by
    simp [Document.ofBytes?, read, hd, Except.toOption]
  rw [before, Option.bind_some, Document.ofBytes?_toUTF8 hd', Option.map_some, Option.map_some,
    live]

theorem Mends.alike [Glob.Engine] (h : Mends name limit t t') :
    Alike name (Document.live limit) t t' := by
  cases h with
  | file h => exact h.alike.map _
  | block h => exact h.alike

end FileTree

/-! ## What shows in answers -/

namespace ConfigFile
variable {name : String} {fs : FileSystem} {dir : Location}

/-- The file is there and can be used if its bytes are read and say a document. -/
theorem inside?_eq_read : inside? name fs dir =
    ((fs.read (dir.path.join name)).toOption.bind Document.ofBytes?).map
      fun d => ⟨dir.path.join name, d⟩ := by
  rw [inside?, FileSystem.isFile_eq, load]
  cases fs.read (dir.path.join name) with
  | error e => rfl
  | ok content =>
    cases htext : String.fromUTF8? content with
    | none => simp [Except.toOption, Document.ofBytes?, htext]
    | some text => cases hparse : Document.parse text <;>
        simp [Except.toOption, Document.ofBytes?, htext, hparse]

end ConfigFile

namespace Resolver
open FileTree (Alike)
variable {options : ResolverOptions} {t t' : FileTree} {cwd l : Location} {target : Path}

/-- The files found look alike if the file of every directory does and root flags can be told. -/
theorem filesFrom_through {g : Document → Document} (hg : ∀ d, (g d).isRoot = d.isRoot)
    {fs fs' : FileSystem} (h : ∀ dir ∈ l.ancestors,
      (ConfigFile.inside? options.fileName fs' dir).map (ConfigFile.through g) =
        (ConfigFile.inside? options.fileName fs dir).map (ConfigFile.through g)) :
    (filesFrom options fs' l).map (ConfigFile.through g) =
      (filesFrom options fs l).map (ConfigFile.through g) := by
  have found : ∀ fs : FileSystem, (filesFrom options fs l).map (ConfigFile.through g) =
      (upTo ConfigFile.isRoot (l.ancestors.filterMap fun dir =>
        (ConfigFile.inside? options.fileName fs dir).map (ConfigFile.through g))).reverse := by
    intro fs
    have flag : (fun f => (ConfigFile.through g f).isRoot) = ConfigFile.isRoot :=
      funext fun f => hg f.document
    rw [← List.map_filterMap, upTo_map, flag, filesFrom, List.map_reverse]
  rw [found, found, List.filterMap_congr h]

/-- The files of a target look alike if its location is the same and the files found from there look
alike. -/
theorem configChain_through [Glob.Engine] {g : Document → Document} {fs fs' : FileSystem}
    (located : fs'.locate target = fs.locate target)
    (found : ∀ l, fs.locate target = .ok l →
      (filesFrom options fs' l).map (ConfigFile.through g) =
        (filesFrom options fs l).map (ConfigFile.through g)) :
    ((new options).configChain fs' target).answer.map (ConfigFile.through g) =
      ((new options).configChain fs target).answer.map (ConfigFile.through g) := by
  cases hl : fs.locate target with
  | error e => simp [configChain, consult, located, hl]
  | ok l => rw [configChain_new (located.trans hl), configChain_new hl, found l hl]

end Resolver

end EditorConfig
