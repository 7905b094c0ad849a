import EditorConfig.Proofs.Glob.Counting
import EditorConfig.Proofs.Reporting.Runs
import EditorConfig.Proofs.Resolving.Locality
/-!
# Runs that are broken off

A range that is within the limit and cannot be written out ends the program where its pattern is
compiled. For a path that is where its walk reaches a configuration file with such a pattern, also
if the resolver remembers directories: nothing that is remembered has ended the program. So a run is
broken off at the first such path, and the reports in front of it are printed.
-/
namespace EditorConfig

/-- The file has a section with a range that is within the limit and cannot be written out. -/
def ConfigFile.Overflows [Glob.Engine] (limit : Nat) (f : ConfigFile) : Prop :=
  ∃ s ∈ f.sections, Glob.compile s.pattern limit = .error (.noRoom s.pattern)

/-- A walk for the target reaches a configuration file that ends the program. -/
def FileSystem.Overflows [Glob.Engine] (fs : FileSystem) (options : ResolverOptions)
    (target : Path) : Prop :=
  ∃ l dir f, fs.locate target = .ok l ∧ ConfigFile.Reached options.fileName fs l dir ∧
    ConfigFile.inside? options.fileName fs dir = some f ∧ f.Overflows options.maxAlternatives

/-- Some of the events is fatal. -/
def Event.Ends (events : List Event) : Prop := ∃ event ∈ events, event.isFatal = true

namespace Event
variable {events events' : List Event}

theorem ends_iff : events.any isFatal = true ↔ Ends events := List.any_eq_true

theorem ends_append : Ends (events ++ events') ↔ Ends events ∨ Ends events' := by
  simp only [Ends, List.mem_append, or_and_right, exists_or]

theorem not_ends_nil : ¬ Ends [] := by simp [Ends]

theorem not_ends_mappedRules (path : Path) (rules : Rules) : ¬ Ends [.mappedRules path rules] := by
  simp [Ends, isFatal]

end Event

open Event (Ends)

/-! ## What is found -/

section
variable [Glob.Engine]

theorem CompiledConfig.ends_events_iff (limit : Nat) (f : ConfigFile) :
    Ends (ofFile limit f).events ↔ f.Overflows limit := by
  constructor
  · rintro ⟨event, member, fatal⟩
    rcases List.mem_append.mp member with skipped | rest
    · obtain ⟨_, -, rfl⟩ := List.mem_map.mp skipped
      cases fatal
    · rcases List.mem_cons.mp rest with rfl | told
      · cases fatal
      · obtain ⟨glob, compiled, told⟩ := List.mem_filterMap.mp told
        obtain ⟨s, held, rfl⟩ := List.mem_map.mp compiled
        split at told
        · cases told
        · next error failed =>
          obtain rfl := Option.some.inj told
          exact ⟨s, held, (Glob.isFatal_of_compile failed).mp fatal⟩
  · rintro ⟨s, member, failed⟩
    refine ⟨.invalidPattern f.path (.noRoom s.pattern), ?_, rfl⟩
    have compiled := List.mem_map_of_mem (f := fun s => Glob.compile s.pattern limit) member
    rw [failed] at compiled
    exact List.mem_append_right _ (List.mem_cons_of_mem _
      (List.mem_filterMap.mpr ⟨_, compiled, rfl⟩))

theorem Finding.ends_look_iff {options : ResolverOptions} {fs : FileSystem} {dir : Location} :
    Ends (look options fs dir).events ↔ ∃ f, ConfigFile.inside? options.fileName fs dir = some f ∧
      f.Overflows options.maxAlternatives := by
  unfold look ConfigFile.inside?
  by_cases there : fs.isFile (dir.path.join options.fileName) = true
  · simp only [there, if_true]
    cases ConfigFile.load fs (dir.path.join options.fileName) with
    | error e => simp [events, Ends, Event.isFatal, Except.toOption]
    | ok f => simp [events, CompiledConfig.ends_events_iff, Except.toOption]
  · simp [there, events, Ends]

end

/-! ## Resolvers that go on -/

namespace Resolver
variable [Glob.Engine] {r : Resolver} {fs : FileSystem} {path : Path}

/-- What is remembered is what would be found, and nothing of it ends the program. -/
structure Calm (r : Resolver) (fs : FileSystem) : Prop where
  current : r.Current fs
  harmless : ∀ dir config?, r.known.lookup dir = some config? →
    ¬ Ends (Finding.look r.options fs dir).events

theorem calm_new (options : ResolverOptions) (fs : FileSystem) : (new options).Calm fs :=
  ⟨current_new options fs, nofun⟩

theorem Calm.ends_visit_iff (calm : r.Calm fs) (dir : Location) :
    Ends (r.visit fs dir).events ↔ Ends (Finding.look r.options fs dir).events := by
  unfold visit
  split
  · next known => exact iff_of_false Event.not_ends_nil (calm.harmless dir _ known)
  · exact Iff.rfl

theorem Calm.ends_walk_iff (calm : r.Calm fs) (l : Location) :
    Ends ((r.walk fs l.ancestors).flatMap Visit.events) ↔
      ∃ dir f, ConfigFile.Reached r.options.fileName fs l dir ∧
        ConfigFile.inside? r.options.fileName fs dir = some f ∧
        f.Overflows r.options.maxAlternatives := by
  have spread : Ends ((r.walk fs l.ancestors).flatMap Visit.events) ↔
      ∃ dir ∈ visited (r.outcome fs) l.ancestors, Ends (r.visit fs dir).events := by
    simp only [Ends, walk_eq, List.mem_flatMap, List.mem_map]
    constructor
    · rintro ⟨event, ⟨_, ⟨dir, member, rfl⟩, told⟩, fatal⟩
      exact ⟨dir, member, event, told, fatal⟩
    · rintro ⟨dir, member, event, told, fatal⟩
      exact ⟨event, ⟨_, ⟨dir, member, rfl⟩, told⟩, fatal⟩
  rw [spread, calm.current]
  refine exists_congr fun dir => ?_
  rw [mem_visited_iff, calm.ends_visit_iff, Finding.ends_look_iff, exists_and_left]

theorem Calm.ends_consult_iff {α : Type} {nothing : α}
    {answer : Location → List CompiledConfig → α × List Event} (calm : r.Calm fs)
    (quiet : ∀ l chain, ¬ Ends (answer l chain).2) :
    Ends (r.consult fs path nothing answer).events ↔ fs.Overflows r.options path := by
  unfold consult FileSystem.Overflows
  cases located : fs.locate path with
  | error e => simp [Ends, Event.isFatal]
  | ok l =>
    simp only [Event.ends_append, calm.ends_walk_iff, quiet, or_false]
    constructor
    · exact fun h => ⟨l, h.imp fun dir => Exists.imp fun f reached => ⟨rfl, reached⟩⟩
    · rintro ⟨_, dir, f, ⟨⟩, reached⟩
      exact ⟨dir, f, reached⟩

theorem Calm.ends_resolve_iff (calm : r.Calm fs) (path : Path) :
    Ends (r.resolve fs path).events ↔ fs.Overflows r.options path := by
  refine calm.ends_consult_iff fun l chain => ?_
  simp [Ends, hitEvent, Event.isFatal]

theorem Calm.ends_configChain_iff (calm : r.Calm fs) (path : Path) :
    Ends (r.configChain fs path).events ↔ fs.Overflows r.options path :=
  calm.ends_consult_iff fun _ _ => Event.not_ends_nil

/-- A question that does not end the program leaves a resolver that goes on. -/
theorem Calm.ask (calm : r.Calm fs) (q : Query) (goes : ¬ fs.Overflows r.options path) :
    (r.ask ⟨fs, q, path⟩).resolver.Calm fs := by
  refine ⟨calm.current.ask q path, fun dir config? known => ?_⟩
  rw [options_ask]
  cases hcache : r.options.cache with
  | false =>
    have same : (r.ask ⟨fs, q, path⟩).resolver = r := after_uncached hcache [⟨fs, q, path⟩]
    exact calm.harmless dir config? (same ▸ known)
  | true =>
    rw [known_ask hcache] at known
    cases before : r.known.lookup dir with
    | some config? => exact calm.harmless dir config? before
    | none =>
      rw [before, Option.none_or] at known
      split at known
      · next looked =>
        cases located : fs.locate path with
        | error e => simp [lookedUp, located] at looked
        | ok l =>
          rw [lookedUp_ok located, calm.current, mem_visited_iff] at looked
          rw [Finding.ends_look_iff]
          rintro ⟨f, inside, overflows⟩
          exact goes ⟨l, dir, f, located, looked, inside, overflows⟩
      · cases known

end Resolver

/-! ## Reports -/

namespace Report
variable [Glob.Engine] {settings : Settings} {fs : FileSystem} {r : Resolver}

theorem ends_ofFile_iff (calm : r.Calm fs) (options : r.options = settings.resolver)
    (style : ReportStyle) (path : Path) :
    Ends (ofFile settings style fs r path).events ↔ fs.Overflows settings.resolver path := by
  have told : ∀ p, ¬ Ends (entriesOf settings.raw path p).2 := by
    intro p
    unfold entriesOf
    split
    · exact Event.not_ends_nil
    · exact Event.not_ends_mappedRules _ _
  have resolved := calm.ends_resolve_iff path
  rw [options] at resolved
  by_cases ends : fs.Overflows settings.resolver path
  · refine iff_of_true ?_ ends
    unfold ofFile
    split <;> simp only [Event.ends_append, resolved.mpr ends, true_or]
  · have after : (r.resolve fs path).resolver.Calm fs := calm.ask .properties (options ▸ ends)
    have kept : (r.resolve fs path).resolver.options = settings.resolver :=
      (Resolver.options_ask r ⟨fs, .properties, path⟩).trans options
    have chain := after.ends_configChain_iff path
    rw [kept] at chain
    refine iff_of_false ?_ ends
    unfold ofFile
    split <;> simp only [Event.ends_append, resolved, told, chain, ends, or_self, not_false_iff]

theorem calm_ofFile (calm : r.Calm fs) (options : r.options = settings.resolver)
    (style : ReportStyle) {path : Path} (goes : ¬ fs.Overflows settings.resolver path) :
    (ofFile settings style fs r path).resolver.Calm fs := by
  have after : (r.resolve fs path).resolver.Calm fs := calm.ask .properties (options ▸ goes)
  have kept : (r.resolve fs path).resolver.options = settings.resolver :=
    (Resolver.options_ask r ⟨fs, .properties, path⟩).trans options
  rw [resolver_ofFile]
  split
  · exact after.ask .files (kept.symm ▸ goes)
  · exact after

/-- By induction on the files: as long as none ends the program the next finds the resolver as the
first one did. -/
theorem ends_ofFiles_iff (calm : r.Calm fs) (options : r.options = settings.resolver)
    (style : ReportStyle) (files : List Path) : Ends (ofFiles settings style fs r files).events ↔
      ∃ p ∈ files, fs.Overflows settings.resolver p := by
  induction files generalizing r with
  | nil => simp [ofFiles, Ends]
  | cons path rest ih =>
    rw [ofFiles, Event.ends_append, ends_ofFile_iff calm options, List.exists_mem_cons_iff]
    by_cases ends : fs.Overflows settings.resolver path
    · simp only [ends, true_or]
    · rw [ih (calm_ofFile calm options style ends)
        (ofFile_current calm.current options style path).2.2]

/-- The reports that are finished are those for the files in front of the first that ends the
program. -/
theorem finished_eq (calm : r.Calm fs) (options : r.options = settings.resolver)
    (style : ReportStyle) (files : List Path) : ∃ front behind, files = front ++ behind ∧
      (∀ p ∈ front, ¬ fs.Overflows settings.resolver p) ∧
      (∀ p ∈ behind.head?, fs.Overflows settings.resolver p) ∧
      finished settings style fs r files = front.map (alone settings style fs) := by
  induction files generalizing r with
  | nil => exact ⟨[], [], rfl, by simp, by simp, rfl⟩
  | cons path rest ih =>
    have here := ends_ofFile_iff calm options style path
    rw [← Event.ends_iff] at here
    by_cases ends : fs.Overflows settings.resolver path
    · refine ⟨[], path :: rest, rfl, by simp, by simpa using ends, ?_⟩
      rw [finished, if_pos (here.mpr ends)]
      rfl
    · obtain ⟨own, -, kept⟩ := ofFile_current calm.current options style path
      obtain ⟨front, behind, rfl, go, stop, rest⟩ := ih (calm_ofFile calm options style ends) kept
      refine ⟨path :: front, behind, rfl, List.forall_mem_cons.mpr ⟨ends, go⟩, stop, ?_⟩
      rw [finished, if_neg fun h => ends (here.mp h), own, rest, List.map_cons]

end Report

section
variable [Glob.Engine] {fs : FileSystem} {paths files : List Path}

/-- A run is broken off exactly if one of its files ends the program. -/
theorem ends_run_iff (settings : Settings) (style : ReportStyle)
    (h : Walk.ofPaths fs paths = files.map .ok) : Ends (run fs settings style paths).2 ↔
      ∃ p ∈ files, fs.Overflows settings.resolver p := by
  have complete (resolved withRules : Nat) : ¬ Ends [.runComplete resolved withRules] := by
    simp [Ends, Event.isFatal]
  rw [run, h, pathsOf_ok]
  simp only [Event.ends_append, complete, or_false]
  exact Report.ends_ofFiles_iff (Resolver.calm_new _ fs) rfl style files

/-- Until then the reports are printed that the files in front of it get alone. -/
theorem printedBeforeEnd_eq (settings : Settings) (style : ReportStyle)
    (h : Walk.ofPaths fs paths = files.map .ok) : ∃ front behind, files = front ++ behind ∧
      (∀ p ∈ front, ¬ fs.Overflows settings.resolver p) ∧
      (∀ p ∈ behind.head?, fs.Overflows settings.resolver p) ∧
      printedBeforeEnd fs settings style paths = String.join (front.map fun p =>
        (Report.alone settings style fs p).print style (1 < files.length)) := by
  obtain ⟨front, behind, written, go, stop, reports⟩ :=
    Report.finished_eq (Resolver.calm_new settings.resolver fs) rfl style files
  refine ⟨front, behind, written, go, stop, ?_⟩
  rw [printedBeforeEnd, h, pathsOf_ok]
  simp only [reports, List.map_map]
  rfl

end

end EditorConfig
