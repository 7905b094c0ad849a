import EditorConfig.Proofs.Resolving.Cache
import EditorConfig.Proofs.Rules
import EditorConfig.Report
/-!
# Runs

A run asks one resolver about all its files, twice about each if it names the configuration files,
and that resolver may remember. It still reports every file as if that file were the only one asked
about. The invariant of a run is that what its resolver takes a directory to contribute is what the
directory contributes.
-/
namespace EditorConfig

namespace Resolver
variable [Glob.Engine] {r : Resolver} {fs : FileSystem} {path : Path}

/-- What is remembered of a directory is what would be found there. -/
def Current (r : Resolver) (fs : FileSystem) : Prop := r.outcome fs = Finding.outcome r.options fs

theorem current_new (options : ResolverOptions) (fs : FileSystem) : (new options).Current fs :=
  outcome_new options fs

/-- A question about the files adds to the memory only what is found. -/
theorem Current.ask (h : r.Current fs) (q : Query) (path : Path) :
    (r.ask ⟨fs, q, path⟩).resolver.Current fs := by
  cases hcache : r.options.cache with
  | false =>
    have same : (r.ask ⟨fs, q, path⟩).resolver = r := after_uncached hcache [⟨fs, q, path⟩]
    rw [same]
    exact h
  | true =>
    funext dir
    have here : (r.known.lookup dir).getD (Finding.outcome r.options fs dir) =
        Finding.outcome r.options fs dir := congrFun h dir
    rw [outcome, options_ask, known_ask hcache]
    cases hknown : r.known.lookup dir with
    | some config? => simpa [hknown] using here
    | none => split <;> rfl

theorem Current.answer_ask (h : r.Current fs) (q : Query) (path : Path) :
    (r.ask ⟨fs, q, path⟩).answer =
      ((new (r.options.withCache false)).ask ⟨fs, q, path⟩).answer := by
  rw [Resolver.answer_ask, Resolver.answer_ask, outcome_new]
  exact congrArg _ h

end Resolver

namespace Report
variable {settings : Settings} {style : ReportStyle} {fs : FileSystem} {r : Resolver}

/-- The report for a file by a resolver of its own that remembers nothing. -/
def alone [Glob.Engine] (settings : Settings) (style : ReportStyle) (fs : FileSystem)
    (path : Path) : Report :=
  let fresh := Resolver.new (settings.resolver.withCache false)
  { path
    entries :=
      if settings.raw then (fresh.resolve fs path).answer.entries
      else (fresh.rules fs path).answer.entries
    sources :=
      if style.verbose then (fresh.configChain fs path).answer.map ConfigFile.path else [] }

/-- The line in front of a report when there are several reports. -/
def heading (style : ReportStyle) (path : Path) : String :=
  if style.quiet then ""
  else style.colors.header ++ "[" ++ path.text ++ "]" ++ style.colors.reset ++ "\n"

/-! ## One file -/

theorem entries_entriesOf (raw : Bool) (path : Path) (p : Properties) :
    (entriesOf raw path p).1 = if raw then p.entries else (Rules.ofProperties p).entries := by
  cases raw <;> rfl

theorem answer_ofFile [Glob.Engine] (settings : Settings) (style : ReportStyle) (fs : FileSystem)
    (r : Resolver) (path : Path) : (ofFile settings style fs r path).answer =
      { path
        entries := (entriesOf settings.raw path (r.resolve fs path).answer).1
        sources :=
          if style.verbose then
            ((r.resolve fs path).resolver.configChain fs path).answer.map ConfigFile.path
          else [] } := by
  unfold ofFile
  cases style.verbose <;> rfl

theorem resolver_ofFile [Glob.Engine] (settings : Settings) (style : ReportStyle) (fs : FileSystem)
    (r : Resolver) (path : Path) : (ofFile settings style fs r path).resolver =
      if style.verbose then ((r.resolve fs path).resolver.configChain fs path).resolver
      else (r.resolve fs path).resolver := by
  unfold ofFile
  cases style.verbose <;> rfl

/-- A file gets its own report, and the resolver that is left is as good for the next file. -/
theorem ofFile_current [Glob.Engine] (current : r.Current fs)
    (options : r.options = settings.resolver) (style : ReportStyle) (path : Path) :
    (ofFile settings style fs r path).answer = alone settings style fs path ∧
      (ofFile settings style fs r path).resolver.Current fs ∧
      (ofFile settings style fs r path).resolver.options = settings.resolver := by
  have found := Answer.properties.inj (current.answer_ask .properties path)
  have after : (r.resolve fs path).resolver.Current fs := current.ask .properties path
  have kept : (r.resolve fs path).resolver.options = settings.resolver :=
    (Resolver.options_ask r ⟨fs, .properties, path⟩).trans options
  -- The second question finds the memory as the first one left it.
  have chain := Answer.files.inj (after.answer_ask .files path)
  rw [options] at found
  rw [kept] at chain
  refine ⟨?_, ?_, ?_⟩
  · rw [answer_ofFile, entries_entriesOf, found, chain]
    rfl
  · rw [resolver_ofFile]
    split
    · exact after.ask .files path
    · exact after
  · rw [resolver_ofFile]
    split
    · exact (Resolver.options_ask _ ⟨fs, .files, path⟩).trans kept
    · exact kept

/-! ## All files -/

/-- By induction on the files: each finds the resolver as the first one did. -/
theorem ofFiles_current [Glob.Engine] (current : r.Current fs)
    (options : r.options = settings.resolver) (style : ReportStyle) (files : List Path) :
    (ofFiles settings style fs r files).answer = files.map (alone settings style fs) := by
  induction files generalizing r with
  | nil => rfl
  | cons path rest ih =>
    obtain ⟨here, after, kept⟩ := ofFile_current current options style path
    rw [List.map_cons, ← here, ← ih after kept]
    rfl

/-! ## The printed text -/

end Report

theorem pathsOf_ok (files : List Path) : pathsOf (files.map .ok) = .ok files := by
  induction files with
  | nil => rfl
  | cons path rest ih =>
    rw [List.map_cons, pathsOf, ih]
    rfl

/-- What comes of a run is put together from reports that each file gets alone. -/
theorem run_ok [Glob.Engine] {fs : FileSystem} {paths files : List Path} (settings : Settings)
    (style : ReportStyle) (h : Walk.ofPaths fs paths = files.map .ok) :
    (run fs settings style paths).1 =
      .ok ⟨files.length,
        (files.filter fun p => !(Report.alone settings style fs p).entries.isEmpty).length,
        String.join (files.map fun p =>
          (Report.alone settings style fs p).print style (1 < files.length))⟩ := by
  have reports := Report.ofFiles_current (Resolver.current_new settings.resolver fs) rfl style files
  rw [run, h, pathsOf_ok]
  simp only [reports, List.length_map, List.filter_map, List.map_map]
  rfl

/-- Configuration files on two levels, and a file that neither speaks about. -/
def project : FileSystem where
  tree :=
    { root := .file ".editorconfig" "[*.txt]\nindent_size = 2\n".toUTF8
        (.file "a.txt" .empty (.file "c.md" .empty
          (.dir "sub" (.file ".editorconfig" "[*.js]\nend_of_line = LF\n".toUTF8
            (.file "b.js" .empty .nil)) .nil)))
      proper := by
        simp only [Listing.Proper, Listing.names]
        decide }
  cwd := ["sub"]

end EditorConfig
