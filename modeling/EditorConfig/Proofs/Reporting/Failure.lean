import EditorConfig.CommandLine
import EditorConfig.Proofs.Reporting.Endings
import EditorConfig.Proofs.Reporting.Walks
/-!
# Runs that fail

What can be wrong with configuration and settings files is absorbed on the way: a run fails exactly
if its walk meets an error, also if that comes last, and then nothing is printed. What a walk meets
does not depend on what configuration and settings files hold. The one thing that is not absorbed is
a range that is within the limit and cannot be written out: the program ends there, after the
reports for the files in front.
-/
namespace EditorConfig

/-- `e` is the first error among the items of a walk: only files stand in front of it. -/
inductive FirstError (e : WalkError) : List (Except WalkError Path) → Prop
  | here {rest : List (Except WalkError Path)} : FirstError e (.error e :: rest)
  | behind {p : Path} {rest : List (Except WalkError Path)} :
      FirstError e rest → FirstError e (.ok p :: rest)

/-- Walking the paths meets an error. -/
def Walk.Fails (fs : FileSystem) (paths : List Path) : Prop := ∃ e, .error e ∈ ofPaths fs paths

variable {items : List (Except WalkError Path)} {e : WalkError} {fs : FileSystem}
  {paths : List Path} {settings : Settings} {style : ReportStyle}

/-! ## Runs -/

theorem firstError_cons {p : Path} : FirstError e (.ok p :: items) ↔ FirstError e items := by
  constructor
  · rintro ⟨⟩
    assumption
  · exact .behind

theorem pathsOf_eq_error_iff : pathsOf items = .error e ↔ FirstError e items := by
  induction items with
  | nil => exact ⟨nofun, nofun⟩
  | cons item rest ih =>
    cases item with
    | error cause =>
      rw [pathsOf]
      constructor
      · rintro ⟨⟩
        exact .here
      · rintro ⟨⟩
        rfl
    | ok p =>
      have onward : pathsOf (.ok p :: rest) = .error e ↔ pathsOf rest = .error e := by
        rw [pathsOf]
        cases pathsOf rest <;> simp [Except.map]
      rw [onward, ih, firstError_cons]

theorem exists_firstError_iff : (∃ e, FirstError e items) ↔ ∃ e, .error e ∈ items := by
  induction items with
  | nil => exact iff_of_false (by rintro ⟨e, ⟨⟩⟩) (by rintro ⟨e, ⟨⟩⟩)
  | cons item rest ih =>
    cases item with
    | error cause => exact iff_of_true ⟨cause, .here⟩ ⟨cause, List.mem_cons_self⟩
    | ok p => simpa [firstError_cons] using ih

/-- A run fails with the first error of its walk, and with nothing else to tell. -/
theorem run_eq_error [Glob.Engine] (h : FirstError e (Walk.ofPaths fs paths)) :
    run fs settings style paths = (.error e, []) := by
  rw [run, pathsOf_eq_error_iff.mpr h]

theorem firstError_of_run [Glob.Engine] (h : (run fs settings style paths).1 = .error e) :
    FirstError e (Walk.ofPaths fs paths) := by
  rw [run] at h
  split at h
  · next cause found =>
    obtain rfl := Except.error.inj h
    exact pathsOf_eq_error_iff.mp found
  · cases h

/-- Without an error the items of a walk are files. -/
theorem exists_files (h : ¬ ∃ e, .error e ∈ items) :
    ∃ files : List Path, items = files.map .ok := by
  induction items with
  | nil => exact ⟨[], rfl⟩
  | cons item rest ih =>
    cases item with
    | error cause => exact (h ⟨cause, List.mem_cons_self⟩).elim
    | ok p =>
      obtain ⟨files, rfl⟩ := ih fun ⟨e, member⟩ => h ⟨e, List.mem_cons_of_mem _ member⟩
      exact ⟨p :: files, rfl⟩

/-! ## The program -/

namespace CommandLine

section
variable [Glob.Engine] {s : Surroundings} {args : List String} {c : CommandLine} {files : List Path}

/-- The settings that the program runs with. -/
def inForce (c : CommandLine) (s : Surroundings) : Settings := c.settings (c.loadSettings s.fs).1

/-- A file of the walk ends the program. -/
def Overflows (c : CommandLine) (s : Surroundings) : Prop :=
  ∃ p, .ok p ∈ Walk.ofPaths s.fs c.paths ∧ s.fs.Overflows (c.inForce s).resolver p

theorem execute_of_read (read : CommandLine.read args = .ok c) (noInit : c.init = false) :
    execute s args = c.report s := by
  rw [execute, read]
  simp [noInit]

/-- What is said about unusable settings comes before the error. -/
theorem report_failed (h : FirstError e (Walk.ofPaths s.fs c.paths)) :
    c.report s =
      ⟨1, "", (c.loadSettings s.fs).2 ++ ["Error: " ++ e.message], [], s.fs⟩ := by
  unfold report
  simp only [run_eq_error h]

theorem report_of_fails (h : Walk.Fails s.fs c.paths) :
    (c.report s).code = 1 ∧ (c.report s).output = "" := by
  obtain ⟨e, first⟩ := exists_firstError_iff.mpr h
  rw [report_failed first]
  exact ⟨rfl, rfl⟩

omit [Glob.Engine] in
theorem exists_file (walk : Walk.ofPaths s.fs c.paths = files.map .ok) {holds : Path → Prop} :
    (∃ p, .ok p ∈ Walk.ofPaths s.fs c.paths ∧ holds p) ↔ ∃ p ∈ files, holds p := by
  simp [walk]

/-- What a walk without errors leads to is decided by its files. -/
theorem report_walked (walk : Walk.ofPaths s.fs c.paths = files.map .ok) :
    (c.Overflows s → (c.report s).code = 101 ∧ (c.report s).output =
      printedBeforeEnd s.fs (c.inForce s) (c.style s) c.paths) ∧
    (¬ c.Overflows s → (c.report s).code = 0) := by
  have ends := ends_run_iff (c.inForce s) (c.style s) walk
  have fine := run_ok (c.inForce s) (c.style s) walk
  rw [Overflows, exists_file walk, ← ends, ← Event.ends_iff]
  cases outcome : run s.fs (c.inForce s) (c.style s) c.paths with
  | mk answer events =>
    rw [outcome] at fine
    obtain rfl := fine
    rw [inForce] at outcome
    unfold report
    simp only [outcome]
    refine ⟨fun fatal => ?_, fun calm => ?_⟩
    · rw [if_pos fatal]
      exact ⟨rfl, rfl⟩
    · rw [if_neg calm]

theorem code_report (h : ¬ Walk.Fails s.fs c.paths) :
    (c.Overflows s → (c.report s).code = 101) ∧ (¬ c.Overflows s → (c.report s).code = 0) := by
  obtain ⟨files, walk⟩ := exists_files h
  exact ⟨fun ends => ((report_walked walk).1 ends).1, (report_walked walk).2⟩

/-- No file ends the program if ranges within the limit can be written out. -/
theorem not_overflows (below : (c.inForce s).resolver.maxAlternatives < 2 ^ 64 - 1)
    (roomy : ∀ range : Glob.Numerals, range.count ≤ (c.inForce s).resolver.maxAlternatives →
      Glob.Engine.lists range = true) : ¬ c.Overflows s := by
  rintro ⟨p, -, l, dir, f, -, -, -, pattern, -, noRoom⟩
  obtain ⟨range, within, full⟩ := Glob.exists_range_of_noRoom below noRoom
  rw [roomy range within] at full
  cases full

/-- Failure comes from the walk alone, with its first error and no output. Configuration and
settings files may hold anything, and so may all files but those of rules, except for ranges that
are within the limit and cannot be written out. With one of these the program ends when it gets to
the first file that it applies to. -/
theorem failure_from_walk (read : CommandLine.read args = .ok c) (noInit : c.init = false) :
    (∀ (fs : FileSystem) (settings : Settings) (style : ReportStyle) (paths : List Path),
      ((∃ e, (run fs settings style paths).1 = .error e) ↔ Walk.Fails fs paths) ∧
      ∀ e, (run fs settings style paths).1 = .error e →
        FirstError e (Walk.ofPaths fs paths) ∧ (run fs settings style paths).2 = []) ∧
    ((execute s args).code = 1 ∧ (execute s args).output = "" ↔ Walk.Fails s.fs c.paths) ∧
    ((execute s args).code = 0 ↔ ¬ Walk.Fails s.fs c.paths ∧ ¬ c.Overflows s) ∧
    (∀ e, FirstError e (Walk.ofPaths s.fs c.paths) →
      (execute s args).complaints = (c.loadSettings s.fs).2 ++ ["Error: " ++ e.message]) ∧
    (¬ Walk.Fails s.fs c.paths → c.Overflows s → (execute s args).code = 101 ∧
      ∃ front p behind,
        Walk.ofPaths s.fs c.paths = (front ++ p :: behind).map .ok ∧
        s.fs.Overflows (c.inForce s).resolver p ∧
        (∀ q ∈ front, ¬ s.fs.Overflows (c.inForce s).resolver q) ∧
        (execute s args).output = String.join (front.map fun q =>
          (Report.alone (c.inForce s) (c.style s) s.fs q).print (c.style s)
            (1 < (front ++ p :: behind).length))) ∧
    ((c.inForce s).resolver.maxAlternatives < 2 ^ 64 - 1 →
      (∀ range : Glob.Numerals, range.count ≤ (c.inForce s).resolver.maxAlternatives →
        Glob.Engine.lists range = true) → ¬ c.Overflows s) ∧
    ∀ (s' : Surroundings) (args' : List String) (c' : CommandLine),
      CommandLine.read args' = .ok c' → c'.init = false → c'.paths = c.paths →
      s'.fs.cwd = s.fs.cwd → s.fs.tree.Reworded s'.fs.tree →
      Walk.ofPaths s'.fs c'.paths = Walk.ofPaths s.fs c.paths ∧
        (Walk.Fails s.fs c.paths ∨ ¬ c.Overflows s ∧ ¬ c'.Overflows s' →
          (execute s' args').code = (execute s args).code) := by
  rw [execute_of_read read noInit]
  refine ⟨fun fs settings style paths => ⟨?_, fun e failed => ?_⟩, ⟨fun h => ?_, report_of_fails⟩,
    ⟨fun h => ?_, fun h => (code_report h.1).2 h.2⟩, fun e first => ?_, fun fine ends => ?_,
    not_overflows, ?_⟩
  · rw [Walk.Fails, ← exists_firstError_iff]
    exact exists_congr fun e => ⟨firstError_of_run, fun first => by rw [run_eq_error first]⟩
  · have first := firstError_of_run failed
    exact ⟨first, by rw [run_eq_error first]⟩
  · by_contra fine
    by_cases ends : c.Overflows s
    · rw [(code_report fine).1 ends] at h
      exact absurd h.1 (by decide)
    · rw [(code_report fine).2 ends] at h
      exact absurd h.1 (by decide)
  · have fine : ¬ Walk.Fails s.fs c.paths := by
      intro fails
      rw [(report_of_fails fails).1] at h
      exact absurd h (by decide)
    refine ⟨fine, fun ends => ?_⟩
    rw [(code_report fine).1 ends] at h
    exact absurd h (by decide)
  · rw [report_failed first]
  · obtain ⟨files, walk⟩ := exists_files fine
    obtain ⟨code, output⟩ := (report_walked walk).1 ends
    obtain ⟨front, behind, rfl, go, stop, printed⟩ :=
      printedBeforeEnd_eq (c.inForce s) (c.style s) walk
    cases behind with
    | nil =>
      obtain ⟨p, member, overflows⟩ := (exists_file walk).mp ends
      exact (go p (by simpa using member) overflows).elim
    | cons p behind =>
      exact ⟨code, front, p, behind, walk, stop p rfl, go, output.trans printed⟩
  · intro s' args' c' read' noInit' samePaths sameDirectory reworded
    have same : Walk.ofPaths s'.fs c'.paths = Walk.ofPaths s.fs c.paths := by
      rw [samePaths]
      exact Walk.ofPaths_reworded reworded sameDirectory c.paths
    have alike : Walk.Fails s'.fs c'.paths ↔ Walk.Fails s.fs c.paths := by
      rw [Walk.Fails, Walk.Fails, same]
    refine ⟨same, fun settled => ?_⟩
    rw [execute_of_read read' noInit']
    by_cases fails : Walk.Fails s.fs c.paths
    · rw [(report_of_fails fails).1, (report_of_fails (alike.mpr fails)).1]
    · obtain ⟨calm, calm'⟩ := settled.resolve_left fails
      rw [(code_report fails).2 calm, (code_report fun fails' => fails (alike.mp fails')).2 calm']

end

-- Configuration and settings files may be reworded.
example : ResolverOptions.default.fileName ∉ Walk.ruleNames ∧
    EditorConfig.Settings.fileName ∉ Walk.ruleNames := by decide

/-- The second path leads nowhere. That is all that counts, also with bytes that are no text in the
outer configuration file and without the settings file that is asked for. -/
theorem failure_from_walk_project :
    (execute ⟨project, none, false⟩ ["b.js", "nope"]).code = 1 ∧
    (execute ⟨project, none, false⟩ ["b.js", "nope"]).output = "" ∧
    ∃ t, project.tree.put? [".editorconfig"] (some ⟨#[255]⟩) = some t ∧
      (execute ⟨⟨t, project.cwd⟩, none, false⟩
        ["--config", "gone.toml", "b.js", "nope"]).code = 1 := by
  have read : CommandLine.read ["b.js", "nope"] =
      .ok { nothing with paths := [⟨"b.js"⟩, ⟨"nope"⟩] } := by
    decide +kernel
  have read' : CommandLine.read ["--config", "gone.toml", "b.js", "nope"] =
      .ok { nothing with paths := [⟨"b.js"⟩, ⟨"nope"⟩], config := some ⟨"gone.toml"⟩ } := by
    decide +kernel
  have walk : Walk.ofPaths project [⟨"b.js"⟩, ⟨"nope"⟩] =
      [.ok ⟨"b.js"⟩, .error (.unreachable ⟨"nope"⟩ .notFound)] := by
    decide +kernel
  have fails : Walk.Fails project [⟨"b.js"⟩, ⟨"nope"⟩] :=
    ⟨.unreachable ⟨"nope"⟩ .notFound, by rw [walk]; simp⟩
  obtain ⟨content, file⟩ : ∃ content, project.tree.node? [".editorconfig"] = some (.file content) :=
    ⟨_, rfl⟩
  obtain ⟨t, written, -⟩ := FileTree.exists_put? (FileTree.view?_of_node? file) ⟨#[255]⟩
  obtain ⟨-, failure, -, -, -, -, others⟩ :=
    failure_from_walk (s := ⟨project, none, false⟩) read rfl
  obtain ⟨code, output⟩ := failure.mpr fails
  have same := others ⟨⟨t, project.cwd⟩, none, false⟩ _ _ read' rfl rfl rfl
    (FileTree.reworded_of_put? file (by decide) written)
  exact ⟨code, output, t, written, (same.2 (.inl fails)).trans code⟩

/-- A settings file with the largest limit there is, and a range just within it. -/
def crowded : FileSystem where
  tree :=
    { root := .file ".editorconfig" "[\x7b0..9223372036854775806\x7d]\n".toUTF8
        (.file "a.txt" .empty (.file "edconf.toml"
          "[resolve]\nmax_alternatives = 9223372036854775807\n".toUTF8 .nil))
      proper := by
        simp only [Listing.Proper, Listing.names]
        decide }
  cwd := []

/-- No error is met on the way, and still the program does not come to its end. -/
theorem crowded_overflows :
    CommandLine.read ["a.txt"] = .ok { nothing with paths := [⟨"a.txt"⟩] } ∧
    ¬ Walk.Fails crowded [⟨"a.txt"⟩] ∧
    (execute ⟨crowded, none, false⟩ ["a.txt"]).code = 101 := by
  have walk : Walk.ofPaths crowded [⟨"a.txt"⟩] = [.ok ⟨"a.txt"⟩] := by decide +kernel
  refine ⟨by decide +kernel, ?_, by decide +kernel⟩
  rintro ⟨e, failed⟩
  rw [walk] at failed
  simp at failed

end CommandLine

end EditorConfig
