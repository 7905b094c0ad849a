import EditorConfig.Proofs.Path.Folding
import EditorConfig.Proofs.Resolving.Walk
/-!
# Spelling of targets

A resolver sees of a target only the location that it folds to. So targets that fold to the same
location get the same answers, however they are written and whether or not the directories that
they name on their way exist.
-/
namespace EditorConfig

namespace FileSystem
open Location (reduce)
open EditorConfig.Path (IsName Simplifies Detour)

/-- A path that is not empty, with a current directory to start from if it is relative. -/
structure Stands (fs : FileSystem) (p : Path) : Prop where
  named : p.text ≠ ""
  started : p.isAbsolute = true ∨ fs.tree.isDir fs.cwd = true

/-- What it means that a path folds to a location. -/
structure Folds (fs : FileSystem) (p : Path) (l : Location) : Prop where
  /-- The location is what is looked at in place of the path. -/
  located : fs.locate p = .ok l
  /-- The path is made absolute and its pieces are taken from the left. -/
  reduced : l = reduce (fs.cwd.path.join p.text).pieces
  /-- Simplifying the pieces in any order ends with the names of the location only. -/
  normal : ∀ names, (Relation.ReflTransGen Simplifies (fs.cwd.path.join p.text).pieces
    (names.map String.toList) ∧ ∀ s ∈ names, IsName s) ↔ names = l.reverse
  /-- The location is written as an absolute path. -/
  absolute : l.path.isAbsolute = true
  /-- Behind the root that path has plain names only. -/
  plain : l.path.components = .root :: l.reverse.map .name ∧ ∀ s ∈ l, IsName s
  /-- It folds to the location again, from every current directory of every tree. -/
  idempotent : ∀ fs' : FileSystem, fs'.locate l.path = .ok l
  /-- Pieces that lead back to where they start, put in anywhere behind the root, change nothing. -/
  detour : ∀ before after detour, p.pieces = before ++ after →
    (p.isAbsolute = true → before ≠ []) → Detour detour →
    fs.locate (.ofPieces (before ++ detour ++ after)) = .ok l

variable {fs : FileSystem} {p : Path}

theorem locate_of_stands (h : fs.Stands p) : fs.locate p = .ok (Location.fold fs.cwd p) := by
  have start : (!p.isAbsolute && !fs.tree.isDir fs.cwd) = false := by
    rcases h.started with h | h <;> simp [h]
  rw [locate, if_neg h.named, start]
  rfl

theorem Stands.names (h : fs.Stands p) : p.isAbsolute = true ∨ ∀ s ∈ fs.cwd, IsName s :=
  h.started.imp_right isName_of_isDir

/-- Every path that stands for something folds to the location that is left of its pieces. -/
theorem folds_of_stands (h : fs.Stands p) :
    fs.Folds p (reduce (fs.cwd.path.join p.text).pieces) := by
  have located := locate_of_stands h
  have joined := Location.reduce_join h.names
  have names := isName_of_locate located
  have absolute : (Location.fold fs.cwd p).path.isAbsolute = true := by
    rw [Path.isAbsolute, Location.toList_path]
    rfl
  rw [← joined] at located names absolute
  refine ⟨located, rfl, Location.normal_form_iff fun _ => Path.not_mem_of_mem_pieces, absolute,
    ⟨Location.components_path names, names⟩, ?_, ?_⟩
  · intro fs'
    rw [locate_of_isAbsolute absolute, Location.fold_path names]
  · intro before after detour written rooted back
    obtain ⟨named, start, folded⟩ := Path.insert_detour h.named written rooted back
    rw [locate_of_stands ⟨named, start ▸ h.started⟩, folded, joined]

end FileSystem

namespace Resolver
open Location (reduce)

/-- Every non-empty target, absolute or below an existing current directory, folds to a location,
and two that fold to the same one get the same replies from every resolver. -/
theorem spelling_transparent [Glob.Engine] (fs : FileSystem) (p q : Path) (hp : fs.Stands p)
    (hq : fs.Stands q)
    (same : reduce (fs.cwd.path.join p.text).pieces = reduce (fs.cwd.path.join q.text).pieces) :
    (∃ l, fs.Folds p l ∧ fs.Folds q l) ∧
    ∀ r : Resolver, r.resolve fs p = r.resolve fs q ∧ r.rules fs p = r.rules fs q ∧
      r.configChain fs p = r.configChain fs q := by
  have foldsP := FileSystem.folds_of_stands hp
  have foldsQ := FileSystem.folds_of_stands hq
  rw [same] at foldsP
  refine ⟨⟨_, foldsP, foldsQ⟩, fun r => ?_⟩
  have properties : r.resolve fs p = r.resolve fs q := by
    simp only [resolve, consult, foldsP.located, foldsQ.located]
  refine ⟨properties, ?_, ?_⟩
  · rw [rules, rules, properties]
  · simp only [configChain, consult, foldsP.located, foldsQ.located]

/-- The target of `nested`, from its directory and by way of directories that do not exist. -/
theorem spelling_transparent_nested :
    let fs : FileSystem := { nested with cwd := ["sub"] }
    let p : Path := ⟨"a.js"⟩
    let q : Path := ⟨"/../sub/no/.././/../sub/a.js"⟩
    fs.Stands p ∧ fs.Stands q ∧ fs.locate q = .ok ["a.js", "sub"] ∧
      (new .default).configChain fs p = (new .default).configChain fs q ∧
      ((new .default).configChain fs q).answer.length = 2 := by
  intro fs p q
  have hp : fs.Stands p := ⟨by decide, .inr (by decide +kernel)⟩
  have hq : fs.Stands q := ⟨by decide, .inl (by decide)⟩
  have same := spelling_transparent fs p q hp hq (by decide +kernel)
  exact ⟨hp, hq, by decide +kernel, (same.2 (new .default)).2.2, by decide +kernel⟩

end Resolver

end EditorConfig
