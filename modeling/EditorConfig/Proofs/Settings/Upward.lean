import EditorConfig.Proofs.Settings.Nearest
import Mathlib.Data.List.Infix
/-!
# Where a search upwards leads

A search drops the components of its start as they are written, so two dots are dropped as a name is
and lead back into the directory that they had left. It goes through all directories that hold the
start and possibly through others, and agrees with the search from the folded start unless one of
the others ends it.
-/
namespace EditorConfig

namespace Settings

/-- The settings file that a directory holds. -/
def fileIn? (t : FileTree) (l : Location) : Option Location :=
  match t.node? (fileName :: l) with
  | some (.file _) => some (fileName :: l)
  | _ => none

/-- A search ends in a directory that holds the settings file or is marked. -/
def stops (t : FileTree) (l : Location) : Bool :=
  (fileIn? t l).isSome || (t.node? (repositoryMark :: l)).isSome

/-- The directories that a search goes through if none ends it, told by the start as it is
written. -/
def onTheWay (start : Path) : List Location := start.climb.map (Location.fold [])

/-- The directory on the way in which a search ends. -/
def stop? (t : FileTree) (start : Path) : Option Location := (onTheWay start).find? (stops t)

/-- No two dots stand behind a name. -/
def Straight (p : Path) : Prop :=
  ∀ front behind, p.components = front ++ .parent :: behind → ∀ s, .name s ∉ front

/-- An absolute path into a directory. -/
structure Rooted (fs : FileSystem) (p : Path) : Prop where
  absolute : p.isAbsolute = true
  entered : ∃ entries, fs.Enters p (Location.fold [] p) entries

variable {fs : FileSystem} {t : FileTree} {p q : Path} {l : Location} {dirs : List Path}

theorem isName_fileName : Path.IsName fileName :=
  ⟨by decide, by decide, by decide, by decide⟩

/-! ## The way -/

theorem Rooted.of_enters {entries : Listing} (absolute : p.isAbsolute = true)
    (h : fs.Enters p l entries) : Rooted fs p := by
  refine ⟨absolute, entries, ?_⟩
  have same : Location.fold fs.cwd p = Location.fold [] p := Location.fold_of_isAbsolute absolute
  rw [← same, ← h.eq_fold]
  exact h

theorem Rooted.parent (h : Rooted fs p) (parent : p.parent? = some q) : Rooted fs q := by
  obtain ⟨entries, entered⟩ := h.entered
  obtain ⟨outer, others, enters⟩ := entered.parent h.absolute parent
  exact .of_enters (Path.parent?_of_isAbsolute h.absolute parent).1 enters

theorem Rooted.forall_mem (h : Rooted fs p) (way : Path.Shortens p dirs) :
    ∀ dir ∈ dirs, Rooted fs dir := by
  induction way with
  | last => exact List.forall_mem_singleton.mpr h
  | drop parent _ ih => exact List.forall_mem_cons.mpr ⟨h, ih (h.parent parent)⟩

/-- Dropping a component leaves a directory or takes back that one was left. -/
theorem fold_parent? (absolute : p.isAbsolute = true) (parent : p.parent? = some q) :
    q.isAbsolute = true ∧ ((∃ s, Location.fold [] p = s :: Location.fold [] q) ∨
      Location.fold [] p = (Location.fold [] q).tail) := by
  obtain ⟨stays, last⟩ := Path.parent?_of_isAbsolute absolute parent
  refine ⟨stays, ?_⟩
  rcases last with last | ⟨s, last⟩
  · exact .inr (by rw [Location.fold, last, List.foldl_concat]; rfl)
  · exact .inl ⟨s, by rw [Location.fold, last, List.foldl_concat]; rfl⟩

theorem fold_of_parent?_eq_none (absolute : p.isAbsolute = true) (bare : p.parent? = none) :
    Location.fold [] p = [] := by
  obtain ⟨cs, hcs⟩ := Path.components_of_isAbsolute absolute
  rcases Path.components_of_parent?_eq_none bare with none | root
  · rw [none] at hcs
    cases hcs
  · rw [Location.fold, root]
    rfl

/-- What is looked for on a way that begins in a directory is found where it is found among those
that hold this directory, unless it is found beside them. -/
structure Agrees (P : Location → Bool) (here : Location) (way : List Location) : Prop where
  nothing : way.find? P = none → here.tails.find? P = none
  above : ∀ l, way.find? P = some l → l <:+ here → here.tails.find? P = some l

variable {P : Location → Bool} {here : Location} {way : List Location}

theorem Agrees.atHead (further : P here = false → Agrees P here way) :
    Agrees P here (here :: way) := by
  cases found : P here with
  | true =>
    have first : here.tails.find? P = some here := by cases here <;> simp [found]
    constructor <;> simp [found, first]
  | false =>
    have same : (here :: way).find? P = way.find? P := by simp [found]
    exact ⟨same ▸ (further found).nothing, same ▸ (further found).above⟩

theorem Agrees.leave {s : String} (h : Agrees P here way) :
    Agrees P (s :: here) ((s :: here) :: way) := by
  refine .atHead fun not => ⟨fun none => ?_, fun l found above => ?_⟩
  · simpa [not] using h.nothing none
  · rcases List.suffix_cons_iff.mp above with rfl | above
    · rw [List.find?_some found] at not
      cases not
    · simpa [not] using h.above l found above

theorem Agrees.takeBack (h : Agrees P here way) : Agrees P here.tail (here.tail :: way) := by
  cases here with
  | nil => exact .atHead fun _ => h
  | cons s outer =>
    refine .atHead fun not => ⟨fun none => ?_, fun l found above => ?_⟩
    · have all := h.nothing none
      rw [List.tails, List.find?_cons] at all
      split at all
      · cases all
      · exact all
    · have inside := h.above l found (above.trans (List.suffix_cons s outer))
      rw [List.tails, List.find?_cons] at inside
      split at inside
      · obtain rfl := Option.some.inj inside
        exact absurd above.length_le (by simp)
      · exact inside

/-- By induction on the components that are dropped. -/
theorem agrees_onTheWay (P : Location → Bool) (absolute : p.isAbsolute = true)
    (shortens : Path.Shortens p dirs) :
    Agrees P (Location.fold [] p) (dirs.map (Location.fold [])) := by
  induction shortens with
  | last bare =>
    rw [List.map_singleton, fold_of_parent?_eq_none absolute bare]
    exact ⟨id, fun _ found _ => found⟩
  | drop parent _ ih =>
    obtain ⟨stays, step⟩ := fold_parent? absolute parent
    rw [List.map_cons]
    rcases step with ⟨s, left⟩ | back
    · exact left ▸ (ih stays).leave
    · exact back ▸ (ih stays).takeBack

/-! ## The search -/

theorem fileIn?_eq_some_iff {file : Location} : fileIn? t l = some file ↔
    file = fileName :: l ∧ ∃ content, t.node? (fileName :: l) = some (.file content) := by
  unfold fileIn?
  cases t.node? (fileName :: l) with
  | none => simp
  | some node => cases node <;> simp [eq_comm]

theorem isFile_settings (h : Rooted fs p) :
    fs.isFile (p.join fileName) = (fileIn? fs.tree (Location.fold [] p)).isSome := by
  obtain ⟨entries, entered⟩ := h.entered
  have fits : fileName.utf8ByteSize ≤ FileSystem.maxNameLength := by decide
  rw [Bool.eq_iff_iff, FileSystem.isFile_iff, Option.isSome_iff_exists]
  simp [FileSystem.node_join isName_fileName fits, entered.holds_iff, fileIn?_eq_some_iff]

theorem present_mark_iff (h : Rooted fs p) : fs.present (p.join repositoryMark) =
    (fs.tree.node? (repositoryMark :: Location.fold [] p)).isSome := by
  obtain ⟨entries, entered⟩ := h.entered
  rw [Bool.eq_iff_iff, present_mark, Option.isSome_iff_exists]
  simp only [Marked, entered.holds_iff]

/-- A settings file that is found stands in the directory in which the search ends. -/
theorem find_settings (h : Rooted fs p) {file : Location}
    (holds : fileIn? fs.tree (Location.fold [] p) = some file) :
    fs.find (p.join fileName) = .ok file := by
  obtain ⟨rfl, content, there⟩ := fileIn?_eq_some_iff.mp holds
  obtain ⟨entries, entered⟩ := h.entered
  rw [FileTree.node?_cons entered.there] at there
  exact (FileSystem.find_join isName_fileName).mpr
    ⟨_, entries, entered, rfl, by decide, by simp [there]⟩

/-- By induction on the directories: the first in which the search ends gives its result. -/
theorem map_findIn (rooted : ∀ dir ∈ dirs, Rooted fs dir) :
    (findIn fs fileName true dirs).map fs.find =
      (((dirs.map (Location.fold [])).find? (stops fs.tree)).bind (fileIn? fs.tree)).map .ok := by
  induction dirs with
  | nil => rfl
  | cons dir dirs ih =>
    obtain ⟨here, others⟩ := List.forall_mem_cons.mp rooted
    rw [findIn, List.map_cons, List.find?_cons, isFile_settings here, present_mark_iff here,
      Bool.true_and, stops]
    cases holds : fileIn? fs.tree (Location.fold [] dir) with
    | some file => simp [holds, find_settings here holds]
    | none =>
      cases fs.tree.node? (repositoryMark :: Location.fold [] dir) with
      | some node => simp [holds]
      | none => simpa using ih others

theorem map_find (h : Rooted fs p) :
    (find fs p).map fs.find = ((stop? fs.tree p).bind (fileIn? fs.tree)).map .ok :=
  map_findIn (h.forall_mem p.shortens_climb)

theorem find_eq_none_iff (h : Rooted fs p) :
    find fs p = none ↔ (stop? fs.tree p).bind (fileIn? fs.tree) = none := by
  rw [← Option.map_eq_none_iff (f := fs.find), map_find h, Option.map_eq_none_iff]

/-- Two ways give the same settings file if they end in the same directory, and otherwise only if
both give none. -/
theorem Agrees.fileIn?_eq_iff (h : Agrees (stops t) here way) :
    (way.find? (stops t)).bind (fileIn? t) = (here.tails.find? (stops t)).bind (fileIn? t) ↔
      (∀ dir ∈ way.find? (stops t), dir <:+ here) ∨
        ((way.find? (stops t)).bind (fileIn? t) = none ∧
          (here.tails.find? (stops t)).bind (fileIn? t) = none) := by
  constructor
  · intro same
    cases ended : way.find? (stops t) with
    | none => exact .inl nofun
    | some l =>
      rw [ended] at same
      by_cases inside : l <:+ here
      · exact .inl fun dir hdir => Option.some.inj hdir ▸ inside
      · -- A file in a directory beside the place is in none that holds it.
        have lost : fileIn? t l = none := by
          by_contra holds
          obtain ⟨file, hfile⟩ := Option.ne_none_iff_exists'.mp holds
          rw [Option.bind_some, hfile] at same
          obtain ⟨l', found, hfile'⟩ := Option.bind_eq_some_iff.mp same.symm
          have above : l' <:+ here := (List.mem_tails _ _).mp (List.mem_of_find?_eq_some found)
          obtain ⟨rfl, -⟩ := fileIn?_eq_some_iff.mp hfile
          obtain ⟨whole, -⟩ := fileIn?_eq_some_iff.mp hfile'
          exact inside ((List.cons.inj whole).2 ▸ above)
        rw [Option.bind_some, lost] at same
        exact .inr ⟨lost, same.symm⟩
  · rintro (inside | ⟨lost, lost'⟩)
    · cases ended : way.find? (stops t) with
      | none => rw [h.nothing ended]
      | some l => rw [h.above l ended (inside l ended)]
    · rw [lost, lost']

/-! ## The folded start -/

theorem Rooted.of_isDir (absolute : p.isAbsolute = true) (directory : fs.isDir p = true) :
    Rooted fs p := by
  obtain ⟨entries, node⟩ := FileSystem.isDir_iff.mp directory
  obtain ⟨l, found, there⟩ := FileSystem.node_eq_ok_iff.mp node
  exact .of_enters absolute ⟨(FileSystem.find_eq_ok_iff.mp found).2, there⟩

/-- A directory that is entered from the root is entered by its path. -/
theorem Rooted.folded (h : Rooted fs p) : Rooted fs (Location.fold [] p).path := by
  obtain ⟨entries, entered⟩ := h.entered
  obtain ⟨s, -, text⟩ := Path.anatomy_of_isAbsolute h.absolute
  have root : (fs.start p).1 = [] := by simp [FileSystem.start, text]
  have fits := FileSystem.fits_of_walk entered.leads (by simp [root])
  have names : ∀ s ∈ Location.fold [] p, Path.IsName s := Location.isName_fold (by simp)
  refine .of_enters ?_ (FileSystem.enters_path names fits entered.there)
  simp [Path.isAbsolute, Location.toList_path]

/-- The search from a folded path goes through the directories that hold it. -/
theorem onTheWay_path (names : ∀ s ∈ l, Path.IsName s) : onTheWay l.path = l.tails := by
  rw [onTheWay, Location.climb_path names, List.map_map]
  conv => rhs; rw [← List.map_id l.tails]
  refine List.map_congr_left fun outer houter => ?_
  exact Location.fold_path (fun s hs => names s (((List.mem_tails _ _).mp houter).subset hs)) []

theorem fold_straight (straight : ∀ s, .name s ∉ p.components) : Location.fold [] p = [] := by
  rw [Location.fold]
  generalize p.components = cs at straight
  induction cs with
  | nil => rfl
  | cons c cs ih =>
    have further := ih fun s hs => straight s (List.mem_cons_of_mem _ hs)
    cases c with
    | root | current | parent => exact further
    | name s => exact (straight s List.mem_cons_self).elim

/-- Where no two dots stand behind a name, a component that is dropped leaves a directory. -/
theorem Straight.parent (absolute : p.isAbsolute = true) (straight : Straight p)
    (parent : p.parent? = some q) : Straight q ∧ Location.fold [] q <:+ Location.fold [] p := by
  obtain ⟨-, last⟩ := Path.parent?_of_isAbsolute absolute parent
  obtain ⟨c, hc⟩ := Path.components_of_parent? parent
  refine ⟨fun front behind dots => straight front (behind ++ [c]) (by simp [hc, dots]), ?_⟩
  rcases last with last | ⟨s, last⟩
  · rw [fold_straight (straight q.components [] last)]
    exact List.nil_suffix
  · have leaves : Location.fold [] p = s :: Location.fold [] q := by
      rw [Location.fold, last, List.foldl_concat]
      rfl
    exact leaves ▸ List.suffix_cons s _

theorem Straight.suffix (absolute : p.isAbsolute = true) (straight : Straight p)
    (way : Path.Shortens p dirs) :
    ∀ dir ∈ dirs.map (Location.fold []), dir <:+ Location.fold [] p := by
  induction way with
  | last => simp
  | drop parent _ ih =>
    obtain ⟨further, inside⟩ := straight.parent absolute parent
    have above := ih (fold_parent? absolute parent).1 further
    exact List.forall_mem_cons.mpr ⟨List.suffix_rfl, fun dir hdir => (above dir hdir).trans inside⟩

/-- The search from a directory goes through all directories that hold the start, and the file is
found in the one that ends it. It agrees with the search from the folded start exactly if a
directory that holds the start ends it, or nothing is found by either. Without two dots behind a
name it goes through no other directories. -/
theorem find_upward (fs : FileSystem) (start : Path) (absolute : start.isAbsolute = true)
    (directory : fs.isDir start = true) :
    let here := Location.fold [] start
    (find fs start).map fs.find = ((stop? fs.tree start).bind (fileIn? fs.tree)).map .ok ∧
    (∀ dir, dir <:+ here → dir ∈ onTheWay start) ∧
    ((find fs start).map fs.find = (find fs here.path).map fs.find ↔
      (∀ dir ∈ stop? fs.tree start, dir <:+ here) ∨
        (find fs start = none ∧ find fs here.path = none)) ∧
    (Straight start → (∀ dir ∈ onTheWay start, dir <:+ here) ∧
      (find fs start).map fs.find = (find fs here.path).map fs.find) := by
  intro here
  have rooted : Rooted fs start := .of_isDir absolute directory
  have climbed := start.shortens_climb
  have agrees : ∀ P, Agrees P here (onTheWay start) := fun P => agrees_onTheWay P absolute climbed
  have folded : stop? fs.tree here.path = here.tails.find? (stops fs.tree) := by
    rw [stop?, onTheWay_path (Location.isName_fold (by simp))]
  have same_iff : (find fs start).map fs.find = (find fs here.path).map fs.find ↔
      (∀ dir ∈ stop? fs.tree start, dir <:+ here) ∨
        (find fs start = none ∧ find fs here.path = none) := by
    rw [map_find rooted, map_find rooted.folded, find_eq_none_iff rooted,
      find_eq_none_iff rooted.folded, folded,
      (Option.map_injective fun _ _ => Except.ok.inj).eq_iff]
    exact (agrees (stops fs.tree)).fileIn?_eq_iff
  refine ⟨map_find rooted, fun dir above => ?_, same_iff, fun straight => ?_⟩
  · by_contra beside
    have none : (onTheWay start).find? (· == dir) = none := by
      rw [List.find?_eq_none]
      exact fun other hother same => beside (beq_iff_eq.mp same ▸ hother)
    have all := (agrees _).nothing none
    exact List.find?_eq_none.mp all dir ((List.mem_tails _ _).mpr above) (beq_self_eq_true dir)
  · have inside := straight.suffix absolute climbed
    refine ⟨inside, same_iff.mpr (.inl fun dir ended => ?_)⟩
    exact inside dir (List.mem_of_find?_eq_some ended)

/-- A directory with a settings file, and one beside it without. -/
def beside : FileSystem where
  tree :=
    { root := .dir "a" (.file fileName .empty .nil) (.dir "b" .nil .nil)
      proper := by
        simp only [Listing.Proper, Listing.names]
        decide }
  cwd := []

/-- On the way from `/a/../b` the search finds a file of `/a`, and from `/b` none. -/
theorem find_upward_beside :
    let start : Path := ⟨"/a/../b"⟩
    start.isAbsolute = true ∧ beside.isDir start = true ∧
      stop? beside.tree start = some ["a"] ∧ ¬ ["a"] <:+ Location.fold [] start ∧
      (find beside start).map beside.find ≠
        (find beside (Location.fold [] start).path).map beside.find := by
  intro start
  have absolute : start.isAbsolute = true := by decide
  have directory : beside.isDir start = true := by decide +kernel
  have ended : stop? beside.tree start = some ["a"] := by decide +kernel
  have outside : ¬ ["a"] <:+ Location.fold [] start := by decide +kernel
  have found : find beside start ≠ none := by decide +kernel
  refine ⟨absolute, directory, ended, outside, fun same => ?_⟩
  rcases (find_upward beside start absolute directory).2.2.1.mp same with inside | lost
  · exact outside (inside _ ended)
  · exact found lost.1

/-- The path `/a/../b` leads into `/b`, from where nothing is found, but a search from it goes
through `/a` and finds the file there. -/
theorem find_beside_start :
    let start : Path := ⟨"/a/../b"⟩
    start.isAbsolute = true ∧ beside.isDir start = true ∧
      (Location.fold [] start).path = ⟨"/b"⟩ ∧ beside.isDir ⟨"/b"⟩ = true ∧
      find beside start = some ⟨"/a/edconf.toml"⟩ ∧ find beside ⟨"/b"⟩ = none := by
  decide +kernel

end Settings

end EditorConfig
