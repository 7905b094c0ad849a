import EditorConfig.Proofs.Document.Recasing
import EditorConfig.Proofs.Resolving.Damage
import EditorConfig.Proofs.Rules
import Mathlib.Data.Option.Basic
/-!
# Files in another letter case

Rules, keys and the files of a chain do not depend on whether the letters of the files are large or
small, as long as headers stay as they are. Trees whose files differ in that way look alike at every
place when documents are seen with their values in small letters; so do the files that a walk finds,
the sections that apply and the properties that they make, and rules are read from properties
without regard to letter case.
-/
namespace EditorConfig

/-- `content'` is `content` with letters of ASCII in another case. If the bytes are no text, they
have no headers. -/
inductive Document.Rewritten (content content' : ByteArray) : Prop
  | text {text text' : String} (read : String.fromUTF8? content = some text)
      (read' : String.fromUTF8? content' = some text') (recased : Document.Recased text text')
  | noText (read : String.fromUTF8? content = none)
      (letters : content'.data.toList.map UInt8.toAsciiLower =
        content.data.toList.map UInt8.toAsciiLower)

/-- The trees hold the same files and directories, and every file of `t'` is the one of `t` with
letters in another case. -/
def FileTree.Recased (t t' : FileTree) : Prop :=
  ∀ l, Option.Rel (Option.Rel Document.Rewritten) (t.view? l) (t'.view? l)

/-! ## Files -/

namespace Document

theorem Rewritten.refl (content : ByteArray) : Rewritten content content := by
  cases read : String.fromUTF8? content with
  | none => exact .noText read rfl
  | some text => exact .text read read ⟨rfl, List.forall₂_same.mpr fun _ _ _ => rfl⟩

/-- The document that bytes say, with its values in small letters. -/
def seen? (content : ByteArray) : Option Document := (ofBytes? content).map lowered

theorem seen?_rewritten {content content' : ByteArray} (h : Rewritten content content') :
    seen? content' = seen? content := by
  unfold seen? ofBytes?
  cases h with
  | @text text text' read read' recased =>
    have same := parse_recased recased
    rw [read, read', Option.bind_some, Option.bind_some]
    cases hparse : parse text <;> cases hparse' : parse text' <;>
      simp_all [Except.map, Except.toOption]
  | noText read letters => rw [read, Text.fromUTF8?_eq_none read letters]

end Document

/-! ## Trees -/

namespace FileTree
variable {β : Type} {g : ByteArray → β} {t t' : FileTree} {l : Location}

/-- The trees look alike at every place when files are seen through `g`. -/
def SameView (g : ByteArray → β) (t t' : FileTree) : Prop :=
  ∀ l, (t'.view? l).map (Option.map g) = (t.view? l).map (Option.map g)

theorem Recased.sameView (h : t.Recased t') : SameView Document.seen? t t' := by
  intro l
  have here := h l
  generalize t.view? l = view, t'.view? l = view' at here
  cases here with
  | none => rfl
  | some inside =>
    cases inside with
    | none => rfl
    | some rewritten => simp [Document.seen?_rewritten rewritten]

/-- Rewriting one file is enough. -/
theorem recased_of_put? {content content' : ByteArray} (file : t.node? l = some (.file content))
    (rewritten : Document.Rewritten content content')
    (written : t.put? l (some content') = some t') : t.Recased t' := by
  have seen := view?_of_node? file
  obtain ⟨there, hthere, changed⟩ := exists_put? seen content'
  obtain rfl : there = t' := Option.some.inj (hthere.symm.trans written)
  intro l'
  rw [changed l']
  split
  · next here =>
    subst here
    rw [seen]
    exact .some (.some rewritten)
  · rcases t.view? l' with _ | _ | same
    · exact .none
    · exact .some .none
    · exact .some (.some (.refl same))

namespace SameView

theorem isDir_node? (h : SameView g t t') (l : Location) :
    (t'.node? l).map Node.isDir = (t.node? l).map Node.isDir := by
  have here := h l
  rw [view?, view?] at here
  generalize t.node? l = node, t'.node? l = node' at here ⊢
  rcases node with _ | content | entries <;> rcases node' with _ | content' | entries' <;>
    simp_all [Node.isDir, Node.bytes?]

theorem isDir (h : SameView g t t') (l : Location) : t'.isDir l = t.isDir l := by
  have whole : ∀ t : FileTree, t.isDir l = ((t.node? l).map Node.isDir).any id := by
    intro t
    rw [Option.any_map]
    rfl
  rw [whole, whole, h.isDir_node?]

theorem isSome_node? (h : SameView g t t') (l : Location) :
    (t'.node? l).isSome = (t.node? l).isSome := by
  simpa using congrArg Option.isSome (h.isDir_node? l)

/-- A path is followed through both trees alike. -/
theorem walk (h : SameView g t t') (here : Location) (pieces : List (List Char)) :
    FileSystem.walk t' here pieces = FileSystem.walk t here pieces := by
  induction pieces generalizing here with
  | nil => rfl
  | cons piece rest ih =>
    have kind := h.isDir_node? here
    rw [FileSystem.walk, FileSystem.walk]
    cases there : t.node? here with
    | none =>
      rw [there, Option.map_none, Option.map_eq_none_iff] at kind
      rw [kind]
    | some node =>
      rw [there] at kind
      obtain ⟨node', there', same⟩ := Option.map_eq_some_iff.mp kind
      rw [there']
      cases node with
      | file content =>
        cases node' with
        | file content' => rfl
        | dir entries' => cases same
      | dir entries =>
        cases node' with
        | file content' => cases same
        | dir entries' =>
          simp only [ih]
          cases Path.component? piece with
          | none => rfl
          | some component =>
            cases component with
            | root | current | parent => rfl
            | name name =>
              -- A name is there or not, whatever it stands for.
              have found : (entries'.find? name).isSome = (entries.find? name).isSome := by
                rw [← node?_cons there, ← node?_cons there', h.isSome_node?]
              cases hfound : entries.find? name <;> cases hfound' : entries'.find? name <;>
                simp_all

theorem find (h : SameView g t t') (cwd : Location) (p : Path) :
    FileSystem.find ⟨t', cwd⟩ p = FileSystem.find ⟨t, cwd⟩ p := by
  simp only [FileSystem.find, FileSystem.start, h.walk]

theorem toOption_read (h : SameView g t t') (cwd : Location) (p : Path) :
    (FileSystem.read ⟨t', cwd⟩ p).toOption.map g = (FileSystem.read ⟨t, cwd⟩ p).toOption.map g := by
  rw [FileSystem.toOption_read, FileSystem.toOption_read, h.find cwd p]
  cases FileSystem.find ⟨t, cwd⟩ p with
  | error e => rfl
  | ok l =>
    have here := h l
    simp only [Except.toOption, Option.bind_some]
    generalize t.view? l = view, t'.view? l = view' at here
    rcases view with _ | _ | content <;> rcases view' with _ | _ | content' <;> simp_all

end SameView

end FileTree

/-! ## Sections and rules -/

namespace ConfigFile

theorem inside?_seen (name : String) (fs : FileSystem) (dir : Location) :
    (inside? name fs dir).map (through Document.lowered) =
      ((fs.read (dir.path.join name)).toOption.map Document.seen?).join.map
        fun d => ⟨dir.path.join name, d⟩ := by
  rw [inside?_eq_read]
  cases (fs.read (dir.path.join name)).toOption with
  | none => rfl
  | some content => simp [Document.seen?, through, Function.comp_def]

/-- A section applies or not, however its values are written. -/
theorem applicable_lowered [Glob.Engine] (limit : Nat) (target : Location)
    (files : List ConfigFile) :
    applicable limit target (files.map (through Document.lowered)) =
      (applicable limit target files).map Section.lowered := by
  unfold applicable
  rw [List.flatMap_map, List.map_flatMap]
  refine List.flatMap_congr fun f _ => ?_
  have sections : (f.through Document.lowered).sections = f.sections.map Section.lowered := rfl
  rw [sections, List.filter_map]
  rfl

end ConfigFile

theorem Properties.lowered_ofSections (sections : List Section) :
    (ofSections sections).lowered = ofSections (sections.map Section.lowered) := by
  have run : ∀ (sections : List Section) (p : Properties),
      (sections.foldl (fun p s => p.merge s.properties) p).lowered =
        (sections.map Section.lowered).foldl (fun p s => p.merge s.properties) p.lowered := by
    intro sections
    induction sections with
    | nil => exact fun _ => rfl
    | cons s rest ih =>
      intro p
      rw [List.foldl_cons, ih, lowered_merge]
      rfl
  exact run sections .empty

namespace Rules

theorem choose?_lowered {α : Type} (value : α → String) (choices : List α) (text : String) :
    choose? value choices (Text.lowered text) = choose? value choices text := by
  simp only [choose?, Text.equalIgnoringCase_lowered]

theorem positive?_lowered (text : String) : positive? (Text.lowered text) = positive? text := by
  -- Neither digits nor the plus sign are letters.
  have plain : ∀ digits : List Char, (∀ c ∈ digits, c.isDigit = true) →
      ∀ c ∈ digits, c.isAlpha = false := fun digits all c hc =>
    (Bool.not_eq_true' _).mp (of_isDigit (p := fun c => !c.isAlpha) (by decide) (all c hc))
  refine Option.ext fun n => ?_
  rw [positive?_eq_some_iff, positive?_eq_some_iff, Text.toList_lowered]
  refine exists_congr fun digits => and_congr_left fun ⟨_, all, _⟩ => or_congr ?_ ?_
  · exact Text.asciiLower_eq_iff (plain digits all)
  · exact Text.asciiLower_eq_iff (List.forall_mem_cons.mpr ⟨by decide, plain digits all⟩)

theorem ofValue?_lowered (text : String) :
    IndentSize.ofValue? (Text.lowered text) = IndentSize.ofValue? text := by
  rw [IndentSize.ofValue?, IndentSize.ofValue?, Text.equalIgnoringCase_lowered, positive?_lowered]

/-- Rules are read from values without regard to letter case. -/
theorem ofProperties_lowered (p : Properties) : ofProperties p.lowered = ofProperties p := by
  simp only [ofProperties, Properties.get?_lowered, Option.bind_map, Function.comp_def,
    choose?_lowered, positive?_lowered, ofValue?_lowered]

end Rules

/-! ## Answers -/

namespace Resolver
open FileTree (SameView)
variable {options : ResolverOptions} {t t' : FileTree} {cwd l : Location} {target : Path}

theorem locate_recased (h : SameView Document.seen? t t') :
    FileSystem.locate ⟨t', cwd⟩ target = FileSystem.locate ⟨t, cwd⟩ target := by
  simp only [FileSystem.locate, h.isDir]

theorem configChain_recased [Glob.Engine] (options : ResolverOptions) (cwd : Location)
    (target : Path) (h : SameView Document.seen? t t') :
    ((new options).configChain ⟨t', cwd⟩ target).answer.map (ConfigFile.through Document.lowered) =
      ((new options).configChain ⟨t, cwd⟩ target).answer.map
        (ConfigFile.through Document.lowered) := by
  refine configChain_through (locate_recased h) fun l _ => ?_
  refine filesFrom_through (g := Document.lowered) (fun _ => rfl) fun dir _ => ?_
  rw [ConfigFile.inside?_seen, ConfigFile.inside?_seen, h.toOption_read]

theorem resolve_recased [Glob.Engine] (h : SameView Document.seen? t t') :
    ((new options).resolve ⟨t', cwd⟩ target).answer.lowered =
      ((new options).resolve ⟨t, cwd⟩ target).answer.lowered := by
  have located : FileSystem.locate ⟨t', cwd⟩ target = FileSystem.locate ⟨t, cwd⟩ target :=
    locate_recased h
  cases hl : FileSystem.locate ⟨t, cwd⟩ target with
  | error e => simp [resolve, consult, located, hl]
  | ok l =>
    rw [resolve_new (located.trans hl), resolve_new hl, Properties.lowered_ofSections,
      Properties.lowered_ofSections, ← ConfigFile.applicable_lowered,
      ← ConfigFile.applicable_lowered, configChain_recased options cwd target h]

/-- Whether letters outside headers are large or small, in any files of a tree, does not show in the
typed rules of any target, in the keys of its properties and their order, or in the places, root
flags and skipped lines of the files that apply to it; nor does it show in the root flag and the
skipped lines of a text by itself. -/
theorem recasing_transparent [Glob.Engine] (options : ResolverOptions) (t t' : FileTree)
    (cwd : Location) (h : t.Recased t') :
    (∀ target,
      ((new options).rules ⟨t', cwd⟩ target).answer = ((new options).rules ⟨t, cwd⟩ target).answer ∧
      ((new options).resolve ⟨t', cwd⟩ target).answer.keys =
        ((new options).resolve ⟨t, cwd⟩ target).answer.keys ∧
      ((new options).configChain ⟨t', cwd⟩ target).answer.map
          (fun f => (f.path, f.directory, f.isRoot, f.document.skipped)) =
        ((new options).configChain ⟨t, cwd⟩ target).answer.map
          (fun f => (f.path, f.directory, f.isRoot, f.document.skipped))) ∧
    ∀ text text', Document.Recased text text' →
      (Document.parse text').map (fun d => (d.isRoot, d.skipped)) =
        (Document.parse text).map fun d => (d.isRoot, d.skipped) := by
  have view := h.sameView
  refine ⟨fun target => ⟨?_, ?_, ?_⟩, ?_⟩
  · have rules : ∀ fs : FileSystem, ((new options).rules fs target).answer =
        Rules.ofProperties ((new options).resolve fs target).answer.lowered :=
      fun fs => (Rules.ofProperties_lowered _).symm
    rw [rules, rules, resolve_recased view]
  · rw [← Properties.keys_lowered, resolve_recased view, Properties.keys_lowered]
  · have shown := congrArg
      (List.map fun f : ConfigFile => (f.path, f.directory, f.isRoot, f.document.skipped))
      (configChain_recased options cwd target view)
    rw [List.map_map, List.map_map] at shown
    exact shown
  · intro text text' recased
    have read := congrArg (Except.map fun d : Document => (d.isRoot, d.skipped))
      (Document.parse_recased recased)
    cases hparse : Document.parse text <;> cases hparse' : Document.parse text' <;>
      simp_all [Except.map, Document.lowered]

/-- A tree with a configuration file at the top and nothing else. -/
def single (text : String) : FileTree where
  root := .file ".editorconfig" text.toUTF8 .nil
  proper := by
    simp only [Listing.Proper, Listing.names]
    decide

theorem recased_single {text text' : String} (h : Document.Recased text text') :
    (single text).Recased (single text') := by
  have rewritten : Document.Rewritten text.toUTF8 text'.toUTF8 :=
    .text (Document.fromUTF8?_toUTF8 text) (Document.fromUTF8?_toUTF8 text') h
  have written : (single text).put? [".editorconfig"] (some text'.toUTF8) = some (single text') :=
    FileTree.put?_eq_some_iff.mpr ⟨by decide, rfl⟩
  exact FileTree.recased_of_put? rfl rewritten written

/-- Large letters wherever the header allows them. -/
def shouted : String := "ROOT = TRUE\n[*.js]\nINDENT_SIZE = TAB\nTAB_WIDTH = 4\nAND SO ON\n"

/-- The same in small letters. -/
def spoken : String := "root = true\n[*.js]\nindent_size = tab\ntab_width = 4\nand so on\n"

theorem recasing_transparent_shouted :
    (single shouted).Recased (single spoken) ∧
      ((new .default).rules ⟨single spoken, []⟩ ⟨"/a.js"⟩).answer =
        ((new .default).rules ⟨single shouted, []⟩ ⟨"/a.js"⟩).answer ∧
      ((new .default).rules ⟨single shouted, []⟩ ⟨"/a.js"⟩).answer.tabWidth = some 4 := by
  have headers : List.Forall₂
      (fun line line' => (Line.ofText line).isHeader = true → line' = line)
      (Text.lines (Text.dropMark shouted.toList)) (Text.lines (Text.dropMark spoken.toList)) := by
    decide +kernel
  have recased : Document.Recased shouted spoken :=
    ⟨by decide +kernel, headers.imp fun _ _ h opens => h ((Line.isHeader_ofText _).mpr opens)⟩
  have tree := recased_single recased
  have all := recasing_transparent .default (single shouted) (single spoken) [] tree
  exact ⟨tree, (all.1 ⟨"/a.js"⟩).1, by decide +kernel⟩

end Resolver

end EditorConfig
