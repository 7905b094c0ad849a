import EditorConfig.Proofs.Path
import EditorConfig.Proofs.Resolving.Walk
/-!
# Remembered directories

A caching resolver answers as one that looks at every directory anew, in a world where the
directories it has looked up are still as they were at their first look-up. The invariant is that
what it knows of a directory is the outcome of the first look-up in its log.
-/
namespace EditorConfig

/-- What a resolver can be asked about a target. -/
inductive Query where
  | properties
  | rules
  | files
deriving DecidableEq, Repr

/-- What a resolver answers. -/
inductive Answer where
  | properties (p : Properties)
  | rules (r : Rules)
  | files (chain : List ConfigFile)

/-- A query about a target, asked while the files are as they are. -/
structure Call where
  fs : FileSystem
  query : Query
  target : Path

/-- The directories that one call looked up, and the files as they were. -/
structure LookUp where
  fs : FileSystem
  dirs : List Location

/-- The options with the cache on or off. -/
def ResolverOptions.withCache (options : ResolverOptions) (cache : Bool) : ResolverOptions :=
  { options with cache }

/-! ## Calls -/

namespace Finding
variable [Glob.Engine]

/-- What is found in a directory depends on the tree alone. -/
theorem look_of_tree {options : ResolverOptions} {fs fs' : FileSystem} {dir : Location}
    (h : fs.tree = fs'.tree) : look options fs dir = look options fs' dir := by
  have node := FileSystem.node_eq_of_tree h (Location.isAbsolute_join dir options.fileName)
  unfold look ConfigFile.load FileSystem.isFile FileSystem.read
  simp only [node]

end Finding

namespace Resolver
variable [Glob.Engine]

/-- Asks one call. -/
def ask (r : Resolver) (c : Call) : Reply Answer :=
  match c.query with
  | .properties => (r.resolve c.fs c.target).map .properties
  | .rules => (r.rules c.fs c.target).map .rules
  | .files => (r.configChain c.fs c.target).map .files

/-- The resolver after some calls. -/
def after (r : Resolver) (calls : List Call) : Resolver :=
  calls.foldl (fun r c => (r.ask c).resolver) r

/-- The directories that a call visits. -/
def lookedUp (r : Resolver) (c : Call) : List Location :=
  match c.fs.locate c.target with
  | .error _ => []
  | .ok l => (r.walk c.fs l.ancestors).map Visit.dir

/-- The directories that a call visits and that are not remembered: those whose files are read. -/
def reads (r : Resolver) (c : Call) : List Location :=
  (r.lookedUp c).filter fun dir => (r.known.lookup dir).isNone

/-- The look-ups of some calls, in their order. -/
def log (r : Resolver) : List Call → List LookUp
  | [] => []
  | c :: rest => ⟨c.fs, r.lookedUp c⟩ :: log (r.ask c).resolver rest

/-- The directories whose files are read in some calls, in their order. -/
def allReads (r : Resolver) : List Call → List Location
  | [] => []
  | c :: rest => r.reads c ++ allReads (r.ask c).resolver rest

end Resolver

/-- The answer to a query that the configurations found and the sections that apply give. -/
def Query.answer (q : Query) (chain : List CompiledConfig) (hits : List Hit) : Answer :=
  match q with
  | properties => .properties (Resolver.merge hits)
  | rules => .rules (Rules.ofProperties (Resolver.merge hits))
  | files => .files (chain.map CompiledConfig.file)

/-- The answer to a call when every directory contributes what `outcome` says. -/
def Call.answer (c : Call) (outcome : Location → Option CompiledConfig) : Answer :=
  match c.fs.locate c.target with
  | .error _ => c.query.answer [] []
  | .ok l => c.query.answer (Resolver.chain outcome l) (Resolver.hits (Resolver.chain outcome l) l)

/-- The outcome of the first of some look-ups of a directory. -/
def firstOutcome [Glob.Engine] (options : ResolverOptions) (past : List LookUp) (dir : Location) :
    Option (Option CompiledConfig) :=
  past.findSome? fun p => if dir ∈ p.dirs then some (Finding.outcome options p.fs dir) else none

/-- What a directory contributes when the first of past look-ups counts, and the present if there
is none. -/
def frozen [Glob.Engine] (options : ResolverOptions) (past : List LookUp) (fs : FileSystem)
    (dir : Location) : Option CompiledConfig :=
  (firstOutcome options past dir).getD (Finding.outcome options fs dir)

namespace Resolver

section
variable [Glob.Engine]

theorem answer_ask (r : Resolver) (c : Call) :
    (r.ask c).answer = c.answer (r.outcome c.fs) := by
  unfold ask Call.answer
  cases hl : c.fs.locate c.target with
  | error e =>
    cases c.query <;>
      simp [resolve, rules, configChain, consult, hl, Reply.map, Query.answer, merge]
  | ok l =>
    cases c.query <;>
      simp [resolve, rules, configChain, consult, hl, Reply.map, Query.answer, chainOf_walk]

/-- What a call leaves behind is its walk. -/
theorem resolver_ask (r : Resolver) (c : Call) :
    (r.ask c).resolver = match c.fs.locate c.target with
      | .error _ => r
      | .ok l => r.remember (r.walk c.fs l.ancestors) := by
  unfold ask
  cases hl : c.fs.locate c.target with
  | error e => cases c.query <;> simp [resolve, rules, configChain, consult, hl, Reply.map]
  | ok l => cases c.query <;> simp [resolve, rules, configChain, consult, hl, Reply.map]

theorem options_ask (r : Resolver) (c : Call) : (r.ask c).resolver.options = r.options := by
  rw [resolver_ask]
  split
  · rfl
  · unfold remember
    split <;> rfl

/-! ## What is remembered -/

omit [Glob.Engine] in
theorem lookup_remembered (known : List (Location × Option CompiledConfig)) (visits : List Visit)
    (dir : Location) :
    (visits.foldl (fun known v =>
      if (known.lookup v.dir).isSome then known
      else (v.dir, v.config?) :: known) known).lookup dir =
      (known.lookup dir).or
        (visits.findSome? fun v => if v.dir = dir then some v.config? else none) := by
  induction visits generalizing known with
  | nil => simp
  | cons v rest ih =>
    rw [List.foldl_cons, ih, List.findSome?_cons]
    by_cases hdir : v.dir = dir
    · subst hdir
      cases hknown : known.lookup v.dir with
      | none => simp
      | some config? => simp [hknown]
    · have fresh : (dir == v.dir) = false := beq_false_of_ne fun he => hdir he.symm
      by_cases hknown : (known.lookup v.dir).isSome = true
      · simp [hknown, hdir]
      · simp [hknown, hdir, List.lookup_cons, fresh]

theorem lookedUp_ok {r : Resolver} {c : Call} {l : Location} (h : c.fs.locate c.target = .ok l) :
    r.lookedUp c = visited (r.outcome c.fs) l.ancestors := by
  have same : Visit.dir ∘ r.visit c.fs = id := funext (dir_visit r c.fs)
  simp only [lookedUp, h]
  rw [walk_eq, List.map_map, same, List.map_id]

theorem findSome?_visits (r : Resolver) (fs : FileSystem) (dirs : List Location)
    (dir : Location) :
    (dirs.map (r.visit fs)).findSome? (fun v => if v.dir = dir then some v.config? else none) =
      if dir ∈ dirs then some (r.outcome fs dir) else none := by
  induction dirs with
  | nil => rfl
  | cons d rest ih =>
    rw [List.map_cons, List.findSome?_cons, ih]
    by_cases hd : d = dir
    · simp [hd]
    · have hd' : ¬ dir = d := fun he => hd he.symm
      simp [hd, hd']

/-- One call adds the directories it looked up, and only where nothing was known. -/
theorem known_ask {r : Resolver} (hcache : r.options.cache = true) (c : Call) (dir : Location) :
    (r.ask c).resolver.known.lookup dir = (r.known.lookup dir).or
      (if dir ∈ r.lookedUp c then some (Finding.outcome r.options c.fs dir) else none) := by
  rw [resolver_ask]
  cases hl : c.fs.locate c.target with
  | error e => simp [lookedUp, hl]
  | ok l =>
    simp only [remember, hcache, if_true]
    rw [lookup_remembered, walk_eq, findSome?_visits, ← lookedUp_ok hl]
    cases hknown : r.known.lookup dir with
    | some config? => rfl
    | none =>
      -- Where nothing is known, what the resolver takes a directory to contribute is the present.
      have present : r.outcome c.fs dir = Finding.outcome r.options c.fs dir := by
        rw [outcome, hknown]
        rfl
      rw [present]

/-- What is known of a directory is the outcome of its first look-up. -/
theorem known_after {r : Resolver} (hcache : r.options.cache = true) (calls : List Call)
    (dir : Location) :
    (r.after calls).known.lookup dir =
      (r.known.lookup dir).or (firstOutcome r.options (r.log calls) dir) := by
  induction calls generalizing r with
  | nil => simp [after, log, firstOutcome]
  | cons c rest ih =>
    have later := ih (r := (r.ask c).resolver) (by rw [options_ask, hcache])
    have run : r.after (c :: rest) = (r.ask c).resolver.after rest := rfl
    rw [run, later, known_ask hcache, options_ask, Option.or_assoc]
    congr 1
    rw [log, firstOutcome, firstOutcome, List.findSome?_cons]
    split <;> simp

theorem options_after (r : Resolver) (calls : List Call) :
    (r.after calls).options = r.options := by
  induction calls generalizing r with
  | nil => rfl
  | cons c rest ih => exact (ih (r.ask c).resolver).trans (options_ask r c)

theorem outcome_after {options : ResolverOptions} (hcache : options.cache = true)
    (calls : List Call) (fs : FileSystem) :
    ((new options).after calls).outcome fs = frozen options ((new options).log calls) fs := by
  funext dir
  have known := known_after (r := new options) hcache calls dir
  rw [outcome, known, options_after]
  rfl

/-! ## Resolvers without a cache -/

theorem after_uncached {r : Resolver} (hcache : r.options.cache = false) (calls : List Call) :
    r.after calls = r := by
  induction calls with
  | nil => rfl
  | cons c rest ih =>
    have same : (r.ask c).resolver = r := by
      rw [resolver_ask]
      split
      · rfl
      · simp [remember, hcache]
    have run : r.after (c :: rest) = (r.ask c).resolver.after rest := rfl
    rw [run, same, ih]

theorem answer_uncached {options : ResolverOptions} (hcache : options.cache = false)
    (before : List Call) (c : Call) :
    (((new options).after before).ask c).answer = c.answer (Finding.outcome options c.fs) := by
  rw [after_uncached hcache, answer_ask]
  rfl

/-! ## An unchanging tree -/

theorem exists_call_of_mem_log {r : Resolver} {calls : List Call} {p : LookUp}
    (h : p ∈ r.log calls) : ∃ c ∈ calls, p.fs = c.fs := by
  induction calls generalizing r with
  | nil => cases h
  | cons c rest ih =>
    rcases List.mem_cons.mp h with rfl | h
    · exact ⟨c, List.mem_cons_self, rfl⟩
    · obtain ⟨c', hc', hfs⟩ := ih h
      exact ⟨c', List.mem_cons_of_mem c hc', hfs⟩

theorem frozen_of_unchanged {options : ResolverOptions} {past : List LookUp} {fs : FileSystem}
    (h : ∀ p ∈ past, p.fs.tree = fs.tree) :
    frozen options past fs = Finding.outcome options fs := by
  funext dir
  cases hfirst : firstOutcome options past dir with
  | none => simp [frozen, hfirst]
  | some config? =>
    obtain ⟨p, hp, hlook⟩ := List.exists_of_findSome?_eq_some hfirst
    split at hlook
    · obtain rfl := Option.some.inj hlook
      simp [frozen, hfirst, Finding.outcome, Finding.look_of_tree (h p hp)]
    · cases hlook

/-! ## Reading once -/

theorem nodup_lookedUp (r : Resolver) (c : Call) : (r.lookedUp c).Nodup := by
  cases hl : c.fs.locate c.target with
  | error e => simp [lookedUp, hl]
  | ok l =>
    rw [lookedUp_ok hl]
    exact (Location.nodup_ancestors l).sublist (upTo_sublist _ _)

theorem fresh_of_mem_allReads {r : Resolver} (hcache : r.options.cache = true)
    {calls : List Call} {dir : Location} (h : dir ∈ r.allReads calls) :
    r.known.lookup dir = none := by
  induction calls generalizing r with
  | nil => cases h
  | cons c rest ih =>
    rcases List.mem_append.mp h with h | h
    · simpa using (List.mem_filter.mp h).2
    · have later := ih (r := (r.ask c).resolver) (by rw [options_ask, hcache]) h
      rw [known_ask hcache, Option.or_eq_none_iff] at later
      exact later.1

theorem nodup_allReads {r : Resolver} (hcache : r.options.cache = true) (calls : List Call) :
    (r.allReads calls).Nodup := by
  induction calls generalizing r with
  | nil => exact List.nodup_nil
  | cons c rest ih =>
    have hcache' : (r.ask c).resolver.options.cache = true := by rw [options_ask, hcache]
    rw [allReads, List.nodup_append]
    -- Inside one call directories differ; a later call knows all that this one has looked up.
    refine ⟨(nodup_lookedUp r c).filter _, ih hcache', ?_⟩
    rintro dir hnow _ hlater rfl
    have looked := (List.mem_filter.mp hnow).1
    have fresh := fresh_of_mem_allReads hcache' hlater
    rw [known_ask hcache, if_pos looked] at fresh
    simp at fresh

/-- Beyond locating its target, a call depends on the files only in the directories it reads. -/
theorem ask_congr {r : Resolver} {c : Call} {fs' : FileSystem}
    (hlocate : fs'.locate c.target = c.fs.locate c.target)
    (h : ∀ dir ∈ r.reads c, Finding.look r.options fs' dir = Finding.look r.options c.fs dir) :
    r.ask { c with fs := fs' } = r.ask c := by
  have walks : ∀ l, c.fs.locate c.target = .ok l →
      r.walk fs' l.ancestors = r.walk c.fs l.ancestors := by
    intro l hl
    refine walk_congr fun dir hdir => ?_
    cases hknown : r.known.lookup dir with
    | some config? => simp [visit, hknown]
    | none =>
      have hread : dir ∈ r.reads c := by
        rw [reads, List.mem_filter, lookedUp_ok hl]
        exact ⟨hdir, by simp [hknown]⟩
      simp [visit, hknown, h dir hread]
  unfold ask rules resolve configChain
  simp only [consult_congr hlocate walks]

/-- A caching resolver answers every call as one that looks anew, with each directory as it was when
this resolver first looked it up; a tree that does not change is therefore answered for as it is,
and no directory is read twice. -/
theorem cache_transparent (options : ResolverOptions) (past : List Call) (c : Call) :
    let r := (new (options.withCache true)).after past
    let log := (new (options.withCache true)).log past
    (r.ask c).answer = c.answer (frozen options log c.fs) ∧
    (∀ (before : List Call) (c : Call),
      (((new (options.withCache false)).after before).ask c).answer =
        c.answer (Finding.outcome options c.fs)) ∧
    ((∀ p ∈ past, p.fs.tree = c.fs.tree) →
      (r.ask c).answer = ((new (options.withCache false)).ask c).answer) ∧
    ((new (options.withCache true)).allReads (past ++ [c])).Nodup ∧
    ∀ fs' : FileSystem, fs'.locate c.target = c.fs.locate c.target →
      (∀ dir ∈ r.reads c, Finding.look options fs' dir = Finding.look options c.fs dir) →
      r.ask { c with fs := fs' } = r.ask c := by
  intro r log
  have answers : (r.ask c).answer = c.answer (frozen options log c.fs) := by
    rw [answer_ask, outcome_after rfl]
    rfl
  have anew : ∀ (before : List Call) (c : Call),
      (((new (options.withCache false)).after before).ask c).answer =
        c.answer (Finding.outcome options c.fs) :=
    fun before c => answer_uncached rfl before c
  refine ⟨answers, anew, ?_, nodup_allReads rfl _, ?_⟩
  · intro htree
    have unchanged : ∀ p ∈ log, p.fs.tree = c.fs.tree := by
      intro p hp
      obtain ⟨c', hc', hfs⟩ := exists_call_of_mem_log hp
      rw [hfs, htree c' hc']
    rw [answers, frozen_of_unchanged unchanged]
    exact (anew [] c).symm
  · intro fs' hlocate hreads
    refine ask_congr hlocate fun dir hdir => ?_
    rw [options_after]
    exact hreads dir hdir

end

-- What was found once is answered with when the files are gone.
example : (((new (ResolverOptions.default.withCache true)).after
    [⟨nested, .files, ⟨"/sub/a.js"⟩⟩]).configChain ⟨.empty, []⟩
      ⟨"/sub/b.js"⟩).answer.length = 2 := by
  decide +kernel

end Resolver

end EditorConfig
