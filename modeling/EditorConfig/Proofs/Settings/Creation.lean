import EditorConfig.CommandLine
import EditorConfig.Proofs.FileSystem
/-!
# Making a settings file does no harm

Whether the file is there already is looked up by its path, and to write it the path is followed a
second time. Both come into the same directory, so the file is made in a directory that has nothing
of its name, and in all other cases nothing is done. What is there therefore stays as it is in every
run, whatever else happens between the requests, and a settings file that was made is in the way of
all further ones of its directory.
-/
namespace EditorConfig

namespace FileSystem
open EditorConfig.Path (IsName)
variable {t t' : FileTree} {fs : FileSystem} {p : Path} {here l outer : Location}
  {piece : List Char} {pieces : List (List Char)} {entries : Listing} {name : String}

/-! ## Following a path in a tree that has more -/

theorem Leads.kept (h : Leads t here piece) (kept : FileTree.Kept t t') : Leads t' here piece := by
  refine ⟨?_, fun name stands => ⟨(h.named name stands).1, ?_⟩⟩
  · exact FileTree.isDir_iff_view?.mpr (kept here none (FileTree.isDir_iff_view?.mp h.directory))
  · have there := (h.named name stands).2
    rw [← FileTree.isSome_view?, Option.isSome_iff_exists] at there ⊢
    obtain ⟨seen, there⟩ := there
    exact ⟨seen, kept _ seen there⟩

theorem walk_kept (h : walk t here pieces = .ok l) (kept : FileTree.Kept t t') :
    walk t' here pieces = .ok l := by
  induction pieces generalizing here with
  | nil => exact h
  | cons piece pieces ih =>
    obtain ⟨leads, further⟩ := walk_cons.mp h
    exact walk_cons.mpr ⟨leads.kept kept, ih further⟩

/-- A directory is entered as before when everything has been kept. -/
theorem Enters.kept (h : fs.Enters p l entries) (kept : FileTree.Kept fs.tree t') :
    ∃ others, FileSystem.Enters { fs with tree := t' } p l others := by
  have directory : fs.tree.isDir l = true := FileTree.isDir_iff.mpr ⟨entries, h.there⟩
  have still := kept l none (FileTree.isDir_iff_view?.mp directory)
  obtain ⟨others, there⟩ := FileTree.isDir_iff.mp (FileTree.isDir_iff_view?.mpr still)
  exact ⟨others, walk_kept h.leads kept, there⟩

/-! ## Writing a file -/

/-- A path that cannot be followed does not fail for a file that is in the way. -/
theorem walk_ne_alreadyExists (n : String) : walk t here pieces ≠ .error (.alreadyExists n) := by
  induction pieces generalizing here with
  | nil => exact nofun
  | cons piece pieces ih =>
    rw [walk]
    cases t.node? here with
    | none => simp
    | some node =>
      cases node with
      | file content => simp
      | dir entries =>
        simp only
        rcases Path.component?_cases piece with stands | stands | ⟨name, stands⟩
        · rw [stands]
          exact ih
        · rw [stands]
          exact ih
        · simp only [stands]
          by_cases long : maxNameLength < name.utf8ByteSize
          · simp [long]
          · rw [if_neg long]
            cases entries.find? name with
            | none => simp
            | some node => exact ih

/-- No piece that is followed holds a NUL character, and no name does. -/
theorem Enters.no_nul (h : fs.Enters p l entries) (plain : Plain name) :
    '\x00' ∉ (p.join name).text.toList := by
  intro nul
  obtain ⟨front, joined, written⟩ := fs.start_join p (isName_of_plain plain)
  obtain ⟨piece, hpiece, inside⟩ := fs.exists_piece nul (by decide)
  rw [joined, List.mem_append, List.mem_singleton] at hpiece
  rcases hpiece with hpiece | rfl
  · exact no_nul_of_walk ((enters_iff written).mp h).1 piece hpiece inside
  · exact plain.2.2.2.2 inside

/-- A name is written in the directory that the path in front of it leads into. -/
theorem Enters.write_join (h : fs.Enters p l entries) (plain : Plain name)
    (fits : name.utf8ByteSize ≤ maxNameLength) {content : ByteArray} {t' : FileTree}
    (put : fs.tree.put? (name :: l) (some content) = some t') :
    fs.write (p.join name) content = .ok { fs with tree := t' } := by
  have hname : IsName name := isName_of_plain plain
  obtain ⟨front, joined, written⟩ := fs.start_join p hname
  obtain ⟨followed, there⟩ := (enters_iff written).mp h
  unfold write
  rw [if_neg (fs.join_nonempty p hname), if_neg (h.no_nul plain), joined]
  simp only [List.dropLast_concat, List.getLastD_concat, followed, there,
    Path.component?_toList hname, if_neg (Nat.not_lt_of_le fits), put]

/-- Nothing is written by a path that leads into no directory. -/
theorem write_join_eq_error (closed : ∀ l entries, ¬ fs.Enters p l entries) (hname : IsName name)
    (content : ByteArray) :
    ∃ e, fs.write (p.join name) content = .error e ∧ ∀ n, e ≠ .alreadyExists n := by
  obtain ⟨front, joined, written⟩ := fs.start_join p hname
  unfold write
  rw [if_neg (fs.join_nonempty p hname), joined]
  simp only [List.dropLast_concat]
  split
  · exact ⟨_, rfl, nofun⟩
  · split
    · next e followed => exact ⟨e, rfl, fun n he => walk_ne_alreadyExists n (he ▸ followed)⟩
    · next outer followed =>
      split
      · exact ⟨_, rfl, nofun⟩
      · exact ⟨_, rfl, nofun⟩
      · next entries there =>
        exact (closed outer entries ((enters_iff written).mpr ⟨followed, there⟩)).elim

end FileSystem

namespace Settings
open FileSystem (Enters Holds)
variable {fs : FileSystem} {dir : Option Path}

/-! ## One request -/

/-- The directory that a settings file is asked for; the empty path leads into the current one. -/
def place (dir : Option Path) : Path := dir.getD ⟨""⟩

/-- The file system that a request leaves. -/
def left (fs : FileSystem) (dir : Option Path) : FileSystem :=
  match create fs dir with
  | .ok (_, after) => after
  | .error _ => fs

/-- Where nothing was there is the settings file now, which a path leads to, and all else is as it
was before. -/
structure Added (before : FileSystem) (path : Path) (l : Location) (after : FileSystem) : Prop where
  absent : before.present path = false
  vacant : before.tree.node? l = none
  leads : after.find path = .ok l
  changed : before.tree.Changed l (some template.toUTF8) after.tree
  cwd : after.cwd = before.cwd

/-- What is answered when a settings file is asked for. -/
inductive Answered (fs : FileSystem) (dir : Option Path) :
    Except FsError (Path × FileSystem) → Prop where
  /-- The directory has nothing of the name. -/
  | made {l entries after} (entered : fs.Enters (place dir) l entries)
      (free : entries.find? fileName = none)
      (added : Added fs (pathIn dir) (fileName :: l) after) :
      Answered fs dir (.ok (pathIn dir, after))
  /-- A file or a directory of the name is there. -/
  | taken {node} (held : fs.Holds (place dir) fileName node) :
      Answered fs dir (.error (.alreadyExists fileName))
  /-- There is no such directory. -/
  | closed {e} (closed : ∀ l entries, ¬ fs.Enters (place dir) l entries)
      (other : ∀ name, e ≠ .alreadyExists name) : Answered fs dir (.error e)

theorem plain_fileName : Plain fileName := by decide

theorem pathIn_eq (dir : Option Path) : pathIn dir = (place dir).join fileName := by
  cases dir with
  | none => rfl
  | some dir => rfl

theorem present_pathIn : fs.present (pathIn dir) = true ↔
    ∃ node, fs.Holds (place dir) fileName node := by
  rw [pathIn_eq]
  exact FileSystem.present_join (FileSystem.isName_of_plain plain_fileName) (by decide)

/-- A directory without the file gets it. -/
theorem create_of_free {l : Location} {entries : Listing}
    (entered : fs.Enters (place dir) l entries) (free : entries.find? fileName = none) :
    ∃ after, create fs dir = .ok (pathIn dir, after) ∧
      Added fs (pathIn dir) (fileName :: l) after := by
  have vacant : fs.tree.node? (fileName :: l) = none := by
    rw [FileTree.node?_cons entered.there, free]
  have absent : fs.present (pathIn dir) = false := by
    rw [Bool.eq_false_iff, ne_eq, present_pathIn]
    rintro ⟨node, held⟩
    rw [entered.holds_iff, vacant] at held
    cases held
  obtain ⟨t', put, changed⟩ :=
    FileTree.exists_put?_fresh entered.there free plain_fileName template.toUTF8
  have written := entered.write_join plain_fileName (by decide) put
  obtain ⟨others, again⟩ := entered.kept (changed.kept vacant)
  refine ⟨{ fs with tree := t' }, ?_, absent, vacant, ?_, changed, rfl⟩
  · rw [create, absent, pathIn_eq, written]
    rfl
  · have seen : (t'.view? (fileName :: l)).isSome = true := by
      rw [changed (fileName :: l), if_pos rfl]
      rfl
    rw [FileTree.isSome_view?, FileTree.node?_cons again.there] at seen
    rw [pathIn_eq, FileSystem.find_join (FileSystem.isName_of_plain plain_fileName)]
    exact ⟨l, others, again, rfl, by decide, seen⟩

theorem answered_create (fs : FileSystem) (dir : Option Path) :
    Answered fs dir (create fs dir) := by
  by_cases held : ∃ node, fs.Holds (place dir) fileName node
  · have taken : create fs dir = .error (.alreadyExists fileName) := by
      rw [create, if_pos (present_pathIn.mpr held)]
    obtain ⟨node, held⟩ := held
    exact taken ▸ .taken held
  · by_cases entered : ∃ l entries, fs.Enters (place dir) l entries
    · obtain ⟨l, entries, entered⟩ := entered
      have free : entries.find? fileName = none := by
        rw [Option.eq_none_iff_forall_ne_some]
        exact fun node found => held ⟨node, l, entries, entered, found⟩
      obtain ⟨after, done, added⟩ := create_of_free entered free
      exact done ▸ .made entered free added
    · have closed : ∀ l entries, ¬ fs.Enters (place dir) l entries :=
        fun l entries h => entered ⟨l, entries, h⟩
      obtain ⟨e, failed, other⟩ := FileSystem.write_join_eq_error closed
        (FileSystem.isName_of_plain plain_fileName) template.toUTF8
      have refused : create fs dir = .error e := by
        rw [create, if_neg (mt present_pathIn.mp held), pathIn_eq, failed]
        rfl
      exact refused ▸ .closed closed other

theorem left_of_ok {path : Path} {after : FileSystem} (h : create fs dir = .ok (path, after)) :
    left fs dir = after := by
  rw [left, h]

theorem left_of_error {e : FsError} (h : create fs dir = .error e) : left fs dir = fs := by
  rw [left, h]

/-- A request changes nothing that is there. -/
theorem kept_left (fs : FileSystem) (dir : Option Path) : fs.tree.Kept (left fs dir).tree := by
  have answered := answered_create fs dir
  cases result : create fs dir with
  | error e =>
    rw [left_of_error result]
    exact fun _ _ seen => seen
  | ok done =>
    rw [result] at answered
    cases answered with
    | made _ _ added =>
      rw [left_of_ok result]
      exact added.changed.kept added.vacant

/-- What goes by the name of the settings file is in the way of a further one. -/
theorem create_of_taken {l : Location} {entries : Listing}
    (entered : fs.Enters (place dir) l entries)
    (taken : (fs.tree.view? (fileName :: l)).isSome = true) :
    create fs dir = .error (.alreadyExists fileName) := by
  rw [FileTree.isSome_view?, Option.isSome_iff_exists] at taken
  obtain ⟨node, there⟩ := taken
  rw [create, if_pos (present_pathIn.mpr ⟨node, entered.holds_iff.mpr there⟩)]

/-! ## Runs -/

/-- What happens to a file system. -/
inductive Move where
  /-- A settings file is asked for. -/
  | request (dir : Option Path)
  /-- Anything else is done, of which a file system comes. -/
  | other (next : FileSystem)

/-- The file system that a move leaves. -/
def Move.after (fs : FileSystem) : Move → FileSystem
  | request dir => left fs dir
  | other next => next

/-- The file system that a run leaves. -/
def run (fs : FileSystem) (moves : List Move) : FileSystem := moves.foldl Move.after fs

/-- Whatever else is done in a run leaves it so, if it is so before. -/
def Upheld (P : FileSystem → Prop) : FileSystem → List Move → Prop
  | _, [] => True
  | fs, .request dir :: moves => Upheld P (left fs dir) moves
  | fs, .other next :: moves => (P fs → P next) ∧ Upheld P next moves

/-- By induction on the moves: what requests keep can only be ended by something else. -/
theorem of_upheld {P : FileSystem → Prop} (keeps : ∀ fs dir, P fs → P (left fs dir))
    {moves : List Move} (upheld : Upheld P fs moves) (start : P fs) : P (run fs moves) := by
  induction moves generalizing fs with
  | nil => exact start
  | cons move moves ih =>
    cases move with
    | request dir => exact ih upheld (keeps fs dir start)
    | other next => exact ih upheld.2 (upheld.1 start)

theorem run_request (fs : FileSystem) (moves : List Move) (dir : Option Path) :
    run fs (moves ++ [.request dir]) = left (run fs moves) dir := by
  rw [run, List.foldl_append]
  rfl

theorem run_keeps {moves : List Move} {l : Location} {seen : Option ByteArray}
    (there : fs.tree.view? l = some seen)
    (upheld : Upheld (fun fs => fs.tree.view? l = some seen) fs moves) :
    (run fs moves).tree.view? l = some seen :=
  of_upheld (fun fs dir => kept_left fs dir l seen) upheld there

theorem run_stays {moves : List Move} {l : Location} (there : (fs.tree.view? l).isSome = true)
    (upheld : Upheld (fun fs => (fs.tree.view? l).isSome = true) fs moves) :
    ((run fs moves).tree.view? l).isSome = true := by
  refine of_upheld (fun fs dir there => ?_) upheld there
  obtain ⟨seen, there⟩ := Option.isSome_iff_exists.mp there
  exact Option.isSome_iff_exists.mpr ⟨seen, kept_left fs dir l seen there⟩

theorem fs_makeSettings (fs : FileSystem) : (CommandLine.makeSettings fs).fs = left fs none := by
  rw [CommandLine.makeSettings, left]
  cases create fs none <;> rfl

/-- A settings file is added where nothing is, or the request fails and leaves the file system as
it is. In a run no request changes anything that is there; what is there is in the end as it was,
unless something else has changed it; and once a settings file has been made, no further one is made
in its directory for as long as there is something in its place. -/
theorem create_harmless (fs : FileSystem) (dir : Option Path) :
    Answered fs dir (create fs dir) ∧
    ((∃ e, create fs dir = .error e ∧ left fs dir = fs) ∨
      ∃ l after, create fs dir = .ok (pathIn dir, after) ∧ left fs dir = after ∧
        Added fs (pathIn dir) l after) ∧
    (CommandLine.makeSettings fs).fs = left fs none ∧
    (∀ moves dir, (run fs moves).tree.Kept (run fs (moves ++ [.request dir])).tree) ∧
    (∀ moves l seen, fs.tree.view? l = some seen →
      Upheld (fun fs => fs.tree.view? l = some seen) fs moves →
        (run fs moves).tree.view? l = some seen) ∧
    (∀ path after, create fs dir = .ok (path, after) → ∃ outer,
      after.find path = .ok (fileName :: outer) ∧
      ∀ moves, Upheld (fun fs => (fs.tree.view? (fileName :: outer)).isSome = true) after moves →
        ∀ again entries, (run after moves).Enters (place again) outer entries →
          create (run after moves) again = .error (.alreadyExists fileName) ∧
            left (run after moves) again = run after moves) := by
  have answered := answered_create fs dir
  refine ⟨answered, ?_, fs_makeSettings fs, fun moves dir => ?_, fun moves l seen => run_keeps,
    fun path after done => ?_⟩
  · cases result : create fs dir with
    | error e => exact .inl ⟨e, rfl, left_of_error result⟩
    | ok done =>
      rw [result] at answered
      cases answered with
      | made _ _ added => exact .inr ⟨_, _, rfl, left_of_ok result, added⟩
  · rw [run_request]
    exact kept_left (run fs moves) dir
  · rw [done] at answered
    cases answered with
    | @made outer _ _ _ _ added =>
      refine ⟨outer, added.leads, fun moves upheld again entries entered => ?_⟩
      have there : (after.tree.view? (fileName :: outer)).isSome = true := by
        rw [added.changed, if_pos rfl]
        rfl
      have taken := create_of_taken entered (run_stays there upheld)
      exact ⟨taken, left_of_error taken⟩

end Settings

end EditorConfig
