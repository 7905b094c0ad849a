import EditorConfig.Proofs.FileTree
import EditorConfig.Proofs.Path.Parents
import EditorConfig.Proofs.Path.Folding
/-!
# Following a path

A path is followed one piece at a time, each from a directory. Where that succeeds, it leads to the
location that the path folds to, and what goes by a name behind the path is the entry of that name
in the directory that the path leads into.
-/
namespace EditorConfig

/-- A relative name stands behind a path with a separator between them, unless one is there already
or the path is empty. -/
theorem Path.join_cases (p : Path) {name : String} (relative : isAbsolute ⟨name⟩ = false) :
    (p = ⟨""⟩ ∧ p.join name = ⟨name⟩) ∨
    (∃ s, p = ⟨String.ofList (s ++ ['/'])⟩ ∧
      p.join name = ⟨String.ofList (s ++ '/' :: name.toList)⟩) ∨
    (p.text.toList ≠ [] ∧ p.join name = ⟨String.ofList (p.text.toList ++ '/' :: name.toList)⟩) := by
  rw [join, if_neg (by simp [relative])]
  rcases List.eq_nil_or_concat' p.text.toList with empty | ⟨s, c, hp⟩
  · refine .inl ⟨ext_toList empty, ?_⟩
    rw [if_pos (by simp [empty]), String.toList_eq_nil_iff.mp empty, String.empty_append]
  · by_cases ended : c = '/'
    · subst ended
      refine .inr (.inl ⟨s, ext_toList (by simp [hp]), ?_⟩)
      rw [if_pos (by simp [hp])]
      exact ext_toList (by simp [hp])
    · refine .inr (.inr ⟨by simp [hp], ?_⟩)
      rw [if_neg (by simp [hp, ended])]
      exact ext_toList (by simp)

theorem FileTree.isDir_iff {t : FileTree} {l : Location} :
    t.isDir l = true ↔ ∃ entries, t.node? l = some (.dir entries) := by
  unfold isDir
  cases t.node? l with
  | none => simp
  | some node => cases node <;> simp [Node.isDir]

theorem FileTree.isDir_iff_view? {t : FileTree} {l : Location} :
    t.isDir l = true ↔ t.view? l = some none := by
  rw [isDir_iff, view?, Option.map_eq_some_iff]
  constructor
  · rintro ⟨entries, there⟩
    exact ⟨_, there, rfl⟩
  · rintro ⟨node, there, bytes⟩
    cases node with
    | file content => cases bytes
    | dir entries => exact ⟨entries, there⟩

namespace FileSystem
open EditorConfig.Path (IsName)

/-- The directory that a path leads into and what it holds. The empty path leads into the current
directory. -/
structure Enters (fs : FileSystem) (p : Path) (l : Location) (entries : Listing) : Prop where
  leads : walk fs.tree (fs.start p).1 (fs.start p).2 = .ok l
  there : fs.tree.node? l = some (.dir entries)

/-- What goes by a name in the directory that a path leads into. -/
def Holds (fs : FileSystem) (p : Path) (name : String) (node : Node) : Prop :=
  ∃ l entries, fs.Enters p l entries ∧ entries.find? name = some node

/-- A piece of a path can be followed from a directory, a name only to what is there. -/
structure Leads (t : FileTree) (here : Location) (piece : List Char) : Prop where
  directory : t.isDir here = true
  named : ∀ name, Path.component? piece = some (.name name) →
    name.utf8ByteSize ≤ maxNameLength ∧ (t.node? (name :: here)).isSome = true

variable {t : FileTree} {fs : FileSystem} {p : Path} {here l : Location} {piece : List Char}
  {pieces rest : List (List Char)} {entries : Listing} {name : String} {n : Node}

/-! ## Pieces -/

theorem walk_cons : walk t here (piece :: rest) = .ok l ↔
    Leads t here piece ∧ walk t (Location.push here piece) rest = .ok l := by
  by_cases directory : t.isDir here = true
  · obtain ⟨entries, there⟩ := FileTree.isDir_iff.mp directory
    have leads : Leads t here piece ↔ ∀ name, Path.component? piece = some (.name name) →
        name.utf8ByteSize ≤ maxNameLength ∧ (entries.find? name).isSome = true := by
      simp only [← FileTree.node?_cons there]
      exact ⟨Leads.named, Leads.mk directory⟩
    rw [walk, there, leads, Location.push_eq]
    rcases Path.component?_cases piece with stands | stands | ⟨name, stands⟩
    · simp [stands]
    · simp [stands, Location.follow]
    · simp only [stands, Option.elim, Location.follow]
      by_cases long : maxNameLength < name.utf8ByteSize
      · simp [long, Nat.not_le_of_lt long]
      · cases found : entries.find? name <;> simp [long, found, Nat.le_of_not_lt long]
  · refine iff_of_false (fun h => ?_) fun h => directory h.1.directory
    rw [walk] at h
    split at h
    · cases h
    · cases h
    · next there => exact directory (FileTree.isDir_iff.mpr ⟨_, there⟩)

theorem walk_append : walk t here (pieces ++ rest) = .ok l ↔
    ∃ between, walk t here pieces = .ok between ∧ walk t between rest = .ok l := by
  induction pieces generalizing here with
  | nil => simp [walk]
  | cons piece pieces ih => simp [walk_cons, ih, and_assoc]

/-- Pieces lead where they fold to. -/
theorem eq_of_walk (h : walk t here pieces = .ok l) : pieces.foldl Location.push here = l := by
  induction pieces generalizing here with
  | nil => exact Except.ok.inj h
  | cons piece pieces ih => exact ih (walk_cons.mp h).2

theorem isDir_of_walk (h : walk t here pieces = .ok l) (further : pieces ≠ []) :
    t.isDir here = true := by
  obtain ⟨piece, rest, rfl⟩ := List.exists_cons_of_ne_nil further
  exact (walk_cons.mp h).1.directory

/-- What can be followed holds no NUL character. -/
theorem Leads.no_nul (h : Leads t here piece) : '\x00' ∉ piece := by
  intro nul
  have stands : Path.component? piece = some (.name (String.ofList piece)) := by
    unfold Path.component?
    split
    · cases nul
    · exact absurd nul (by decide)
    · exact absurd nul (by decide)
    · rfl
  obtain ⟨node, there⟩ := Option.isSome_iff_exists.mp (h.named _ stands).2
  have plain := Listing.plain_of_descend? t.proper there (String.ofList piece) (by simp)
  exact plain.2.2.2.2 (by simpa using nul)

theorem no_nul_of_walk (h : walk t here pieces = .ok l) : ∀ piece ∈ pieces, '\x00' ∉ piece := by
  induction pieces generalizing here with
  | nil => exact nofun
  | cons piece pieces ih =>
    obtain ⟨leads, further⟩ := walk_cons.mp h
    exact List.forall_mem_cons.mpr ⟨leads.no_nul, ih further⟩

/-- Names that are followed are short enough. -/
theorem fits_of_walk (h : walk t here pieces = .ok l)
    (start : ∀ s ∈ here, s.utf8ByteSize ≤ maxNameLength) :
    ∀ s ∈ l, s.utf8ByteSize ≤ maxNameLength := by
  induction pieces generalizing here with
  | nil => exact Except.ok.inj h ▸ start
  | cons piece pieces ih =>
    obtain ⟨leads, further⟩ := walk_cons.mp h
    refine ih further ?_
    rw [Location.push_eq]
    rcases Path.component?_cases piece with stands | stands | ⟨name, stands⟩
    · simpa [stands] using start
    · simpa [stands, Location.follow] using fun s hs => start s (List.mem_of_mem_tail hs)
    · simp only [stands, Option.elim, Location.follow]
      exact List.forall_mem_cons.mpr ⟨(leads.named name stands).1, start⟩

/-! ## Paths -/

/-- The pieces of a path, taken from where it starts, fold to where the path folds. -/
theorem start_fold (fs : FileSystem) (p : Path) :
    (fs.start p).2.foldl Location.push (fs.start p).1 = Location.fold fs.cwd p := by
  rw [Location.fold_eq, Path.pieces, Path.isAbsolute]
  unfold start
  split
  · next s hs => simp [hs, Path.splitOn_separator_cons]
  · next relative =>
    have head : (p.text.toList.head? == some '/') = false := by
      rw [beq_eq_false_iff_ne]
      intro he
      obtain ⟨s, hs⟩ := List.head?_eq_some_iff.mp he
      exact relative s hs
    rw [head]
    rfl

theorem Enters.eq_fold (h : fs.Enters p l entries) : l = Location.fold fs.cwd p :=
  (eq_of_walk h.leads).symm.trans (start_fold fs p)

/-- Every character of a path but a separator stands in a piece. -/
theorem exists_piece (fs : FileSystem) {c : Char} (h : c ∈ p.text.toList) (inside : c ≠ '/') :
    ∃ piece ∈ (fs.start p).2, c ∈ piece := by
  have found : ∀ {s : List Char}, c ∈ s → ∃ piece ∈ s.splitOn '/', c ∈ piece := by
    intro s hs
    have whole : ['/'].intercalate (s.splitOn '/') = s := List.intercalate_splitOn '/'
    exact (Text.mem_intercalate (whole.symm ▸ hs)).resolve_left inside
  unfold start
  split
  · next s hs =>
    rw [hs, List.mem_cons] at h
    exact found (h.resolve_left inside)
  · exact found h

theorem start_name (fs : FileSystem) (hname : IsName name) :
    fs.start ⟨name⟩ = (fs.cwd, [name.toList]) := by
  unfold start
  split
  · next s hs => exact (hname.no_separator (hs ▸ List.mem_cons_self)).elim
  · rw [List.splitOn_eq_singleton hname.no_separator]

theorem start_separator (fs : FileSystem) (inside : '/' ∉ piece) :
    fs.start ⟨String.ofList ('/' :: piece)⟩ = ([], [piece]) := by
  simp [start, List.splitOn_eq_singleton inside]

/-- The pieces of a path with a piece behind its last separator. -/
theorem start_behind (fs : FileSystem) {front : List Char} (first : front ≠ [])
    (inside : '/' ∉ piece) :
    fs.start ⟨String.ofList (front ++ '/' :: piece)⟩ =
      ((fs.start ⟨String.ofList front⟩).1, (fs.start ⟨String.ofList front⟩).2 ++ [piece]) := by
  have cut : ∀ s : List Char, (s ++ '/' :: piece).splitOn '/' = s.splitOn '/' ++ [piece] := by
    intro s
    rw [List.splitOn_append_cons_self, List.splitOn_eq_singleton inside]
  obtain ⟨c, s, rfl⟩ := List.exists_cons_of_ne_nil first
  unfold start
  simp only [String.toList_ofList, List.cons_append]
  by_cases rooted : c = '/'
  · subst rooted
    simp [cut]
  · have whole := cut (c :: s)
    rw [List.cons_append] at whole
    simp [rooted, whole]

/-- A name behind a path is one more piece, in place of the last if that is empty. -/
theorem start_join (fs : FileSystem) (p : Path) (hname : IsName name) :
    ∃ front, fs.start (p.join name) = ((fs.start p).1, front ++ [name.toList]) ∧
      ((fs.start p).2 = front ∨ (fs.start p).2 = front ++ [[]]) := by
  rcases p.join_cases hname.relative with ⟨rfl, joined⟩ | ⟨s, rfl, joined⟩ | ⟨named, joined⟩
  · rw [joined, fs.start_name hname]
    exact ⟨[], rfl, .inr rfl⟩
  · rw [joined]
    by_cases root : s = []
    · subst root
      rw [List.nil_append, List.nil_append, fs.start_separator hname.no_separator,
        fs.start_separator (by simp)]
      exact ⟨[], rfl, .inr rfl⟩
    · rw [fs.start_behind root hname.no_separator, fs.start_behind root (by simp)]
      exact ⟨_, rfl, .inr rfl⟩
  · rw [joined, fs.start_behind named hname.no_separator, String.ofList_toList]
    exact ⟨_, rfl, .inl rfl⟩

/-- Only the empty path leads nowhere although its pieces may be followed. -/
theorem find_eq_ok_iff : fs.find p = .ok l ↔
    p.text ≠ "" ∧ walk fs.tree (fs.start p).1 (fs.start p).2 = .ok l := by
  rw [find]
  by_cases empty : p.text = ""
  · simp [empty]
  · rw [if_neg empty]
    by_cases nul : '\x00' ∈ p.text.toList
    · obtain ⟨piece, hpiece, inside⟩ := fs.exists_piece nul (by decide)
      rw [if_pos nul]
      exact iff_of_false (by simp) fun h => no_nul_of_walk h.2 piece hpiece inside
    · rw [if_neg nul]
      exact (and_iff_right empty).symm

/-- An empty piece at the end asks for a directory, as entering does. -/
theorem enters_iff (written : (fs.start p).2 = pieces ∨ (fs.start p).2 = pieces ++ [[]]) :
    fs.Enters p l entries ↔
      walk fs.tree (fs.start p).1 pieces = .ok l ∧ fs.tree.node? l = some (.dir entries) := by
  refine ⟨fun h => ⟨?_, h.there⟩, fun h => ⟨?_, h.2⟩⟩
  · rcases written with written | written
    · exact written ▸ h.leads
    · have leads := h.leads
      rw [written, walk_append] at leads
      obtain ⟨between, inFront, behind⟩ := leads
      obtain rfl := eq_of_walk behind
      exact inFront
  · rcases written with written | written
    · exact written ▸ h.1
    · rw [written, walk_append]
      exact ⟨l, h.1, walk_cons.mpr ⟨⟨FileTree.isDir_iff.mpr ⟨_, h.2⟩, nofun⟩, rfl⟩⟩

theorem walk_name (hname : IsName name) : walk t here [name.toList] = .ok l ↔
    ∃ entries, t.node? here = some (.dir entries) ∧ l = name :: here ∧
      name.utf8ByteSize ≤ maxNameLength ∧ (entries.find? name).isSome = true := by
  rw [walk_cons, Location.push_name here hname]
  constructor
  · rintro ⟨leads, last⟩
    obtain rfl := Except.ok.inj last
    obtain ⟨entries, there⟩ := FileTree.isDir_iff.mp leads.directory
    have named := leads.named name (Path.component?_toList hname)
    rw [FileTree.node?_cons there] at named
    exact ⟨entries, there, rfl, named⟩
  · rintro ⟨entries, there, rfl, named⟩
    rw [← FileTree.node?_cons there] at named
    refine ⟨⟨FileTree.isDir_iff.mpr ⟨_, there⟩, fun n stands => ?_⟩, rfl⟩
    rw [Path.component?_toList hname] at stands
    obtain rfl := Path.Component.name.inj (Option.some.inj stands)
    exact named

theorem join_nonempty (fs : FileSystem) (p : Path) (hname : IsName name) :
    (p.join name).text ≠ "" := by
  intro empty
  obtain ⟨front, joined, -⟩ := fs.start_join p hname
  have last : (fs.start (p.join name)).2.getLast? = some [] := by simp [start, empty]
  rw [joined, List.getLast?_concat, Option.some_inj] at last
  exact hname.nonempty (String.toList_eq_nil_iff.mp last)

/-- What a name behind a path leads to stands in the directory that the path leads into. -/
theorem find_join (hname : IsName name) : fs.find (p.join name) = .ok l ↔
    ∃ outer entries, fs.Enters p outer entries ∧ l = name :: outer ∧
      name.utf8ByteSize ≤ maxNameLength ∧ (entries.find? name).isSome = true := by
  obtain ⟨front, joined, written⟩ := fs.start_join p hname
  rw [find_eq_ok_iff, and_iff_right (fs.join_nonempty p hname), joined, walk_append]
  simp only [walk_name hname, enters_iff written, exists_and_left, and_assoc]

theorem node_eq_ok_iff : fs.node p = .ok n ↔
    ∃ l, fs.find p = .ok l ∧ fs.tree.node? l = some n := by
  unfold node
  cases found : fs.find p with
  | error e => simp
  | ok l => cases there : fs.tree.node? l <;> simp [there]

/-- A name that is short enough leads to what goes by it. -/
theorem node_join (hname : IsName name) (fits : name.utf8ByteSize ≤ maxNameLength) :
    fs.node (p.join name) = .ok n ↔ fs.Holds p name n := by
  simp only [node_eq_ok_iff, find_join hname]
  constructor
  · rintro ⟨l, ⟨outer, entries, entered, rfl, -, -⟩, there⟩
    rw [FileTree.node?_cons entered.there] at there
    exact ⟨outer, entries, entered, there⟩
  · rintro ⟨outer, entries, entered, entry⟩
    refine ⟨_, ⟨outer, entries, entered, rfl, fits, by simp [entry]⟩, ?_⟩
    rw [FileTree.node?_cons entered.there, entry]

theorem present_join (hname : IsName name) (fits : name.utf8ByteSize ≤ maxNameLength) :
    fs.present (p.join name) = true ↔ ∃ node, fs.Holds p name node := by
  simp only [← node_join hname fits]
  unfold present
  cases fs.node (p.join name) <;> simp [Except.toOption]

theorem Enters.holds_iff (h : fs.Enters p l entries) :
    fs.Holds p name n ↔ fs.tree.node? (name :: l) = some n := by
  constructor
  · rintro ⟨outer, others, entered, entry⟩
    obtain rfl : l = outer := h.eq_fold.trans entered.eq_fold.symm
    rw [FileTree.node?_cons entered.there, entry]
  · intro entry
    rw [FileTree.node?_cons h.there] at entry
    exact ⟨l, entries, h, entry⟩

theorem isFile_iff : fs.isFile p = true ↔ ∃ content, fs.node p = .ok (.file content) := by
  unfold isFile
  cases fs.node p with
  | error e => simp
  | ok node => cases node <;> simp

theorem isDir_iff : fs.isDir p = true ↔ ∃ entries, fs.node p = .ok (.dir entries) := by
  unfold isDir
  cases fs.node p with
  | error e => simp
  | ok node => cases node <;> simp

/-- What leads into a directory is written behind what leads into a directory. -/
theorem Enters.parent {q : Path} (absolute : p.isAbsolute = true) (h : fs.Enters p l entries)
    (parent : p.parent? = some q) : ∃ outer others, fs.Enters q outer others := by
  obtain ⟨s, anatomy, text⟩ := Path.anatomy_of_isAbsolute absolute
  have written : fs.start p = ([], s.splitOn '/') := by
    unfold start
    simp [text]
  rcases Path.parent?_cases parent with ⟨dot, -⟩ | ⟨front, last, named, rfl⟩
  · rw [anatomy] at dot
    cases dot
  · rw [anatomy] at named ⊢
    obtain ⟨rest, whole, further⟩ := Path.exists_pieces_of_parent? named
    have leads := h.leads
    rw [written, whole, walk_append] at leads
    obtain ⟨outer, inFront, behind⟩ := leads
    obtain ⟨others, there⟩ := FileTree.isDir_iff.mp (isDir_of_walk behind further)
    have pieces : fs.start (Path.assemble .root (Path.dropTrivialEnd front)) =
        ([], (['/'].intercalate (Path.dropTrivialEnd front)).splitOn '/') := by
      simp [start, Path.assemble]
    refine ⟨outer, others, (enters_iff ?_).mpr ⟨by rw [pieces]; exact inFront, there⟩⟩
    rw [pieces]
    by_cases none : Path.dropTrivialEnd front = []
    · exact .inr (by rw [none]; rfl)
    · refine .inl (List.splitOn_intercalate '/' (fun piece hpiece => ?_) none)
      exact Text.not_mem_of_mem_splitOn (whole ▸ List.mem_append_left _ hpiece)

/-- A directory is entered by the path of its location, unless a name is too long. -/
theorem enters_path (names : ∀ s ∈ l, IsName s) (fits : ∀ s ∈ l, s.utf8ByteSize ≤ maxNameLength)
    (there : fs.tree.node? l = some (.dir entries)) : fs.Enters l.path l entries := by
  have rooted : fs.tree.node? [] = some (.dir fs.tree.root) := rfl
  have reversed : ∀ s ∈ l.reverse, IsName s := fun s hs => names s (List.mem_reverse.mp hs)
  have followed := toOption_walk rooted reversed
  have down : fs.tree.root.descend? l.reverse = some (.dir entries) := there
  rw [if_pos ⟨fun s hs => fits s (List.mem_reverse.mp hs), by rw [down]; rfl⟩, List.reverse_reverse,
    List.append_nil] at followed
  have leads : walk fs.tree [] (l.reverse.map String.toList) = .ok l := by
    generalize walk fs.tree [] (l.reverse.map String.toList) = result at followed ⊢
    cases result with
    | error e => cases followed
    | ok _ => exact congrArg Except.ok (Option.some.inj followed)
  by_cases root : l = []
  · subst root
    exact ⟨rfl, there⟩
  · refine ⟨?_, there⟩
    rw [fs.start_path names root]
    exact leads

end FileSystem

end EditorConfig
