import EditorConfig.Resolver
/-!
# Walks

A walk depends on a file system only through what each directory contributes. Given those outcomes,
the directories it visits and the configurations it finds are functions of the way outwards, and a
resolver is a set of remembered outcomes laid over the present ones.
-/
namespace EditorConfig

/-! ## Stopping at the first -/

/-- A list up to the first element that stops, with that element. -/
def upTo {α : Type} (stop : α → Bool) : List α → List α
  | [] => []
  | a :: rest => if stop a then [a] else a :: upTo stop rest

section
variable {α β : Type} {stop : α → Bool}

theorem upTo_sublist (stop : α → Bool) (l : List α) : (upTo stop l).Sublist l := by
  induction l with
  | nil => exact .slnil
  | cons a rest ih =>
    unfold upTo
    split
    · exact .cons_cons a (List.nil_sublist rest)
    · exact .cons_cons a ih

/-- What is reached is what nothing that stops stands in front of. -/
theorem mem_upTo_iff {l : List α} {a : α} : a ∈ upTo stop l ↔
    ∃ before after, l = before ++ a :: after ∧ ∀ b ∈ before, stop b = false := by
  induction l with
  | nil => simp [upTo]
  | cons c rest ih =>
    unfold upTo
    split
    · next hc =>
      constructor
      · intro h
        obtain rfl := List.mem_singleton.mp h
        exact ⟨[], rest, rfl, by simp⟩
      · rintro ⟨before, after, hl, hbefore⟩
        cases before with
        | nil => exact (List.cons.inj hl).1 ▸ List.mem_singleton_self _
        | cons b before =>
          obtain ⟨rfl, -⟩ := List.cons.inj hl
          simp [hc] at hbefore
    · next hc =>
      rw [List.mem_cons, ih]
      constructor
      · rintro (rfl | ⟨before, after, rfl, hbefore⟩)
        · exact ⟨[], rest, rfl, by simp⟩
        · exact ⟨c :: before, after, rfl, List.forall_mem_cons.mpr ⟨by simpa using hc, hbefore⟩⟩
      · rintro ⟨before, after, hl, hbefore⟩
        cases before with
        | nil => exact .inl (List.cons.inj hl).1.symm
        | cons b before =>
          rw [List.forall_mem_cons] at hbefore
          exact .inr ⟨before, after, (List.cons.inj hl).2, hbefore.2⟩

theorem upTo_map (stop : β → Bool) (f : α → β) (l : List α) :
    upTo stop (l.map f) = (upTo (fun a => stop (f a)) l).map f := by
  induction l with
  | nil => rfl
  | cons a rest ih => by_cases ha : stop (f a) = true <;> simp [upTo, ha, ih]

theorem filterMap_upTo (f : α → Option β) (stop : β → Bool) (l : List α) :
    (upTo (fun a => (f a).any stop) l).filterMap f = upTo stop (l.filterMap f) := by
  induction l with
  | nil => rfl
  | cons a rest ih =>
    cases hf : f a with
    | none => simp [upTo, hf, ih]
    | some b => by_cases hb : stop b = true <;> simp [upTo, hf, hb, ih]

end

/-! ## Outcomes -/

/-- The configuration file of a directory, if a file of that name is there and loads. -/
def ConfigFile.inside? (name : String) (fs : FileSystem) (dir : Location) : Option ConfigFile :=
  if fs.isFile (dir.path.join name) then (load fs (dir.path.join name)).toOption else none

namespace FileSystem

theorem toOption_read_eq_some_iff {fs : FileSystem} {p : Path} {content : ByteArray} :
    (fs.read p).toOption = some content ↔ fs.read p = .ok content := by
  cases fs.read p <;> simp [Except.toOption]

theorem isFile_eq (fs : FileSystem) (p : Path) : fs.isFile p = (fs.read p).toOption.isSome := by
  unfold isFile read
  cases fs.node p with
  | error e => rfl
  | ok node => cases node <;> rfl

end FileSystem

namespace Finding
variable [Glob.Engine]

/-- What a directory contributes at present. -/
def outcome (options : ResolverOptions) (fs : FileSystem) (dir : Location) :
    Option CompiledConfig := (look options fs dir).config?

theorem outcome_eq (options : ResolverOptions) (fs : FileSystem) (dir : Location) :
    outcome options fs dir = (ConfigFile.inside? options.fileName fs dir).map
      (CompiledConfig.ofFile options.maxAlternatives) := by
  unfold outcome look ConfigFile.inside?
  by_cases hfile : fs.isFile (dir.path.join options.fileName) = true
  · simp only [hfile, if_true]
    cases ConfigFile.load fs (dir.path.join options.fileName) <;> rfl
  · rw [if_neg hfile, if_neg hfile]
    rfl

end Finding

namespace Resolver
variable [Glob.Engine]

/-- What a resolver takes a directory to contribute. -/
def outcome (r : Resolver) (fs : FileSystem) (dir : Location) : Option CompiledConfig :=
  (r.known.lookup dir).getD (Finding.outcome r.options fs dir)

@[simp] theorem dir_visit (r : Resolver) (fs : FileSystem) (dir : Location) :
    (r.visit fs dir).dir = dir := by
  unfold visit
  split <;> rfl

@[simp] theorem config?_visit (r : Resolver) (fs : FileSystem) (dir : Location) :
    (r.visit fs dir).config? = r.outcome fs dir := by
  unfold visit outcome
  split
  · next h => rw [h]; rfl
  · next h => rw [h]; rfl

/-- The directories that a walk visits, up to the first that contributes a root file. -/
def visited (outcome : Location → Option CompiledConfig) : List Location → List Location :=
  upTo fun dir => (outcome dir).any fun c => c.file.isRoot

theorem walk_eq (r : Resolver) (fs : FileSystem) (dirs : List Location) :
    r.walk fs dirs = (visited (r.outcome fs) dirs).map (r.visit fs) := by
  induction dirs with
  | nil => rfl
  | cons dir outer ih =>
    have last : (r.visit fs dir).isLast = (r.outcome fs dir).any fun c => c.file.isRoot := by
      rw [Visit.isLast, config?_visit]
    simp only [walk, visited, upTo, last, ih]
    split <;> rfl

/-- The configurations found from a location, the outermost first. -/
def chain (outcome : Location → Option CompiledConfig) (l : Location) : List CompiledConfig :=
  ((visited outcome l.ancestors).filterMap outcome).reverse

theorem chainOf_walk (r : Resolver) (fs : FileSystem) (l : Location) :
    chainOf (r.walk fs l.ancestors) = chain (r.outcome fs) l := by
  have same : Visit.config? ∘ r.visit fs = r.outcome fs := funext (config?_visit r fs)
  rw [chainOf, chain, walk_eq, List.filterMap_map, same]

/-! ## Dependence on the files -/

theorem walk_congr {r : Resolver} {fs fs' : FileSystem} {dirs : List Location}
    (h : ∀ dir ∈ visited (r.outcome fs) dirs, r.visit fs' dir = r.visit fs dir) :
    r.walk fs' dirs = r.walk fs dirs := by
  induction dirs with
  | nil => rfl
  | cons dir outer ih =>
    have here : r.visit fs' dir = r.visit fs dir := by
      refine h dir ?_
      unfold visited upTo
      split <;> simp
    simp only [walk, here]
    split
    · rfl
    · next hlast =>
      rw [ih]
      intro d hd
      refine h d ?_
      rw [Visit.isLast, config?_visit] at hlast
      simp only [visited, upTo, hlast]
      exact List.mem_cons_of_mem dir hd

/-- Beyond locating its target, a resolver depends on the files only through its walk. -/
theorem consult_congr {α : Type} {r : Resolver} {fs fs' : FileSystem} {target : Path}
    {nothing : α} {answer : Location → List CompiledConfig → α × List Event}
    (hlocate : fs'.locate target = fs.locate target)
    (h : ∀ l, fs.locate target = .ok l → r.walk fs' l.ancestors = r.walk fs l.ancestors) :
    r.consult fs' target nothing answer = r.consult fs target nothing answer := by
  unfold consult
  rw [hlocate]
  cases hl : fs.locate target with
  | error e => rfl
  | ok l => simp only [h l hl]

/-! ## Answers -/

theorem answer_resolve {r : Resolver} {fs : FileSystem} {target : Path} {l : Location}
    (h : fs.locate target = .ok l) :
    (r.resolve fs target).answer = merge (hits (chain (r.outcome fs) l) l) := by
  simp [resolve, consult, h, chainOf_walk]

theorem answer_configChain {r : Resolver} {fs : FileSystem} {target : Path} {l : Location}
    (h : fs.locate target = .ok l) :
    (r.configChain fs target).answer =
      (chain (r.outcome fs) l).map CompiledConfig.file := by
  simp [configChain, consult, h, chainOf_walk]

/-! ## Resolvers that remember nothing -/

theorem outcome_new (options : ResolverOptions) (fs : FileSystem) :
    (new options).outcome fs = Finding.outcome options fs := rfl

/-- The files that a walk finds when nothing is remembered, the outermost first. -/
def filesFrom (options : ResolverOptions) (fs : FileSystem) (l : Location) : List ConfigFile :=
  (upTo ConfigFile.isRoot
    (l.ancestors.filterMap (ConfigFile.inside? options.fileName fs))).reverse

theorem chain_new (options : ResolverOptions) (fs : FileSystem) (l : Location) :
    chain ((new options).outcome fs) l =
      (filesFrom options fs l).map (CompiledConfig.ofFile options.maxAlternatives) := by
  have same := funext (Finding.outcome_eq options fs)
  -- Compiling the globs of a file does not change where the walk ends.
  have flag : (fun f => (CompiledConfig.ofFile options.maxAlternatives f).file.isRoot) =
      ConfigFile.isRoot := rfl
  rw [outcome_new, chain, visited, filterMap_upTo, same, ← List.map_filterMap, upTo_map, flag,
    filesFrom, List.map_reverse]

theorem configChain_new {options : ResolverOptions} {fs : FileSystem} {target : Path}
    {l : Location} (h : fs.locate target = .ok l) :
    ((new options).configChain fs target).answer = filesFrom options fs l := by
  rw [answer_configChain h, chain_new, List.map_map]
  exact List.map_id _

end Resolver

/-! ## Two levels -/

/-- A root file that speaks about everything and a file below it that speaks about scripts. -/
def nested : FileSystem where
  tree :=
    { root := .file ".editorconfig" "root = true\n[*]\nindent_size = 2\ntab_width = 8\n".toUTF8
        (.dir "sub" (.file ".editorconfig"
          "[*.js]\nend_of_line = lf\nindent_size = 4\n".toUTF8 .nil) .nil)
      proper := by
        simp only [Listing.Proper, Listing.names]
        decide }
  cwd := []

end EditorConfig
