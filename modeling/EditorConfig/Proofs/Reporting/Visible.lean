import EditorConfig.Proofs.ByteOrder
import EditorConfig.Proofs.Path.Joins
import EditorConfig.Proofs.Reporting.Unruled
import EditorConfig.Walk
import Mathlib.Data.List.Nodup
/-!
# What a walk finds where nothing is ignored

Without rules a walk finds all files that are not hidden, each once. It goes through the entries of
a directory in the order of names and through all of one entry before the next, and so the files
come in the order of their names, compared one by one from the outermost on.
-/
namespace EditorConfig

namespace Walk
open Ignore (Layer)
variable {fs : FileSystem} {dir p : Path} {entries t t' sub : Listing} {l : Location}
  {name : String} {names more : List String} {files : List Path} {begins : List String → Prop}

/-! ## Hidden names -/

/-- A hidden name begins with a dot. -/
def Hidden (name : String) : Prop := name.toList.head? = some '.'

theorem isHidden_join (hname : Path.IsName name) : isHidden (p.join name) = true ↔ Hidden name := by
  have inside : ∀ c ∈ name.toList.reverse, (c != '/') = true := fun c hc =>
    bne_iff_ne.mpr fun he => hname.no_separator (he ▸ List.mem_reverse.mp hc)
  have ended {s : List Char} (segment : s.reverse.takeWhile (· != '/') = name.toList.reverse) :
      isHidden ⟨String.ofList s⟩ = true ↔ Hidden name := by
    rw [isHidden, String.toList_ofList, segment, List.getLast?_reverse, beq_iff_eq, Hidden]
  have behind (front : List Char) :
      isHidden ⟨String.ofList (front ++ '/' :: name.toList)⟩ = true ↔ Hidden name := by
    refine ended ?_
    rw [List.reverse_append, List.reverse_cons, List.append_assoc,
      List.takeWhile_append_of_pos inside]
    simp
  rcases p.join_cases hname.relative with ⟨-, joined⟩ | ⟨front, -, joined⟩ | ⟨-, joined⟩
  · have whole := ended (List.takeWhile_eq_self_iff.mpr inside)
    rw [joined]
    rwa [String.ofList_toList] at whole
  · exact joined ▸ behind front
  · exact joined ▸ behind p.text.toList

/-! ## Files in order -/

/-- Names that lead to a file and of which none is hidden. -/
def Visible (entries : Listing) (names : List String) : Prop :=
  (∃ content, entries.descend? names = some (.file content)) ∧ ∀ s ∈ names, ¬ Hidden s

/-- Names are compared by their bytes, the outermost first. -/
def Before (a b : List String) : Prop := a.map Text.utf8 < b.map Text.utf8

/-- The files below a directory that are visible and whose names begin in some way, each once and in
order. -/
def Lists (dir : Path) (entries : Listing) (begins : List String → Prop) (files : List Path) :
    Prop :=
  ∃ found : List (List String), files = found.map (List.foldl Path.join dir) ∧
    (∀ names, names ∈ found ↔ Visible entries names ∧ begins names) ∧ found.Pairwise Before

theorem before_of_lt {a b : String} (h : a < b) (as bs : List String) :
    Before (a :: as) (b :: bs) :=
  List.cons_lt_cons_iff.mpr (.inl (Text.utf8_lt_iff.mpr h))

theorem before_cons {as bs : List String} (h : Before as bs) (a : String) :
    Before (a :: as) (a :: bs) :=
  List.cons_lt_cons_iff.mpr (.inr ⟨rfl, h⟩)

theorem visible_file {content : ByteArray} (found : entries.find? name = some (.file content)) :
    Visible entries (name :: more) ↔ ¬ Hidden name ∧ more = [] := by
  rw [Visible, Listing.descend?_cons, found, List.forall_mem_cons]
  simp only [Option.bind_some, Node.descend?]
  by_cases last : more = [] <;> simp [last]

theorem visible_dir (found : entries.find? name = some (.dir sub)) :
    Visible entries (name :: more) ↔ ¬ Hidden name ∧ Visible sub more := by
  rw [Visible, Listing.descend?_cons, found, List.forall_mem_cons, Visible]
  simp only [Option.bind_some, Node.descend?]
  tauto

theorem visible_congr (same : t'.find? name = t.find? name) :
    Visible t' (name :: more) ↔ Visible t (name :: more) := by
  rw [Visible, Visible, Listing.descend?_cons, Listing.descend?_cons, same]

theorem Visible.exists_entry (h : Visible entries names) :
    ∃ name more, names = name :: more ∧ name ∈ entries.names := by
  obtain ⟨⟨content, leads⟩, -⟩ := h
  cases names with
  | nil => cases leads
  | cons name more =>
    refine ⟨name, more, rfl, ?_⟩
    by_contra absent
    rw [Listing.descend?_cons, Listing.find?_eq_none absent] at leads
    cases leads

theorem Lists.congr {begins' : List String → Prop} (h : Lists dir t begins files)
    (same : ∀ names, Visible t' names ∧ begins' names ↔ Visible t names ∧ begins names) :
    Lists dir t' begins' files := by
  obtain ⟨found, rfl, exact, increasing⟩ := h
  exact ⟨found, rfl, fun names => (exact names).trans (same names).symm, increasing⟩

/-- A file is listed unless it is hidden. -/
theorem lists_file {content : ByteArray} (found : entries.find? name = some (.file content))
    (hname : Path.IsName name) : Lists dir entries (fun names => names.head? = some name)
      (if isHidden (dir.join name) then [] else [dir.join name]) := by
  have exact (names : List String) : Visible entries names ∧ names.head? = some name ↔
      ¬ Hidden name ∧ names = [name] := by
    cases names with
    | nil => simp
    | cons n more =>
      rw [List.head?_cons, Option.some_inj, List.cons.injEq]
      constructor
      · rintro ⟨visible, rfl⟩
        obtain ⟨shown, last⟩ := (visible_file found).mp visible
        exact ⟨shown, rfl, last⟩
      · rintro ⟨shown, rfl, last⟩
        exact ⟨(visible_file found).mpr ⟨shown, last⟩, rfl⟩
  by_cases hidden : Hidden name
  · rw [if_pos ((isHidden_join hname).mpr hidden)]
    exact ⟨[], rfl, fun names => by simp [exact, hidden], .nil⟩
  · rw [if_neg (mt (isHidden_join hname).mp hidden)]
    exact ⟨[[name]], rfl, fun names => by simp [exact, hidden], List.pairwise_singleton _ _⟩

/-- A directory is listed by what is in it, unless it is hidden. -/
theorem lists_dir (found : entries.find? name = some (.dir sub)) (hname : Path.IsName name)
    (inside : Lists (dir.join name) sub (fun _ => True) files) :
    Lists dir entries (fun names => names.head? = some name)
      (if isHidden (dir.join name) then [] else files) := by
  have exact (names : List String) : Visible entries names ∧ names.head? = some name ↔
      ¬ Hidden name ∧ ∃ more, names = name :: more ∧ Visible sub more := by
    cases names with
    | nil => simp
    | cons n more =>
      rw [List.head?_cons, Option.some_inj]
      constructor
      · rintro ⟨visible, rfl⟩
        obtain ⟨shown, below⟩ := (visible_dir found).mp visible
        exact ⟨shown, more, rfl, below⟩
      · rintro ⟨shown, _, ⟨⟩, below⟩
        exact ⟨(visible_dir found).mpr ⟨shown, below⟩, rfl⟩
  obtain ⟨within, rfl, all, increasing⟩ := inside
  by_cases hidden : Hidden name
  · rw [if_pos ((isHidden_join hname).mpr hidden)]
    exact ⟨[], rfl, fun names => by simp [exact, hidden], .nil⟩
  · rw [if_neg (mt (isHidden_join hname).mp hidden)]
    refine ⟨within.map (name :: ·), by simp, fun names => ?_, ?_⟩
    · simp only [exact, hidden, not_false_eq_true, true_and, List.mem_map, all, and_true]
      exact exists_congr fun more => ⟨fun h => ⟨h.2.symm, h.1⟩, fun h => ⟨h.2, h.1.symm⟩⟩
    · exact List.pairwise_map.mpr (increasing.imp fun before => before_cons before name)

/-- Files stand under the names of the entries that they come from. -/
structure Grouped (dir : Path) (entries : Listing) (parts : List (String × List Path)) : Prop where
  names : parts.map Prod.fst = entries.names
  each : ∀ part ∈ parts, Lists dir entries (fun names => names.head? = some part.1) part.2

/-- Entries in the order of names make one list in order. By induction on the entries. -/
theorem lists_flatMap {parts : List (String × List Path)}
    (each : ∀ part ∈ parts, Lists dir entries (fun names => names.head? = some part.1) part.2)
    (increasing : parts.Pairwise fun a b => a.1 < b.1) :
    Lists dir entries (fun names => ∃ part ∈ parts, names.head? = some part.1)
      (parts.flatMap Prod.snd) := by
  induction parts with
  | nil => exact ⟨[], rfl, fun names => by simp, .nil⟩
  | cons part rest ih =>
    obtain ⟨here, others⟩ := List.forall_mem_cons.mp each
    obtain ⟨smaller, onward⟩ := List.pairwise_cons.mp increasing
    obtain ⟨first, written, exactFirst, orderedFirst⟩ := here
    obtain ⟨further, writtenFurther, exactFurther, orderedFurther⟩ := ih others onward
    refine ⟨first ++ further, ?_, fun names => ?_, ?_⟩
    · rw [List.flatMap_cons, List.map_append, written, writtenFurther]
    · simp only [List.mem_append, exactFirst, exactFurther, List.exists_mem_cons_iff, and_or_left]
    · refine List.pairwise_append.mpr ⟨orderedFirst, orderedFurther, fun a ha b hb => ?_⟩
      obtain ⟨-, headA⟩ := (exactFirst a).mp ha
      obtain ⟨-, later, member, headB⟩ := (exactFurther b).mp hb
      obtain ⟨as, rfl⟩ := List.head?_eq_some_iff.mp headA
      obtain ⟨bs, rfl⟩ := List.head?_eq_some_iff.mp headB
      exact before_of_lt (smaller later member) as bs

/-- The entries of a directory, of which no two have the same name, make a list in order when they
are sorted. -/
theorem Grouped.inOrder {parts : List (String × List Path)} (h : Grouped dir entries parts)
    (proper : entries.Proper) : Lists dir entries (fun _ => True) (inOrder parts) := by
  have perm : (parts.mergeSort fun a b => a.1 ≤ b.1).Perm parts := List.mergeSort_perm _ _
  have sorted : (parts.mergeSort fun a b => a.1 ≤ b.1).Pairwise fun a b => a.1 ≤ b.1 := by
    have ordered := @List.pairwise_mergeSort (String × List Path) (fun a b => a.1 ≤ b.1)
      (fun a b c ab bc => by simpa using le_trans (by simpa using ab) (by simpa using bc))
      (fun a b => by simpa using le_total a.1 b.1) parts
    simpa using ordered
  have distinct : (parts.mergeSort fun a b => a.1 ≤ b.1).Pairwise fun a b => a.1 ≠ b.1 := by
    rw [← List.pairwise_map (f := Prod.fst) (R := (· ≠ ·))]
    exact ((perm.map Prod.fst).nodup_iff.mpr (h.names ▸ Listing.nodup_names proper))
  have increasing := sorted.imp₂ (fun _ _ less other => lt_of_le_of_ne less other) distinct
  have each := fun part member => h.each part (perm.mem_iff.mp member)
  refine (lists_flatMap each increasing).congr ?_
  intro names
  refine and_congr_right fun visible => iff_of_true trivial ?_
  obtain ⟨name, more, rfl, member⟩ := visible.exists_entry
  rw [← h.names, List.mem_map] at member
  obtain ⟨part, member, rfl⟩ := member
  exact ⟨part, perm.mem_iff.mpr member, rfl⟩

/-! ## Walks -/

theorem skips_of_bare {f : Frame} {inner : List Layer} (outer : ∀ layer ∈ f.outer, layer.Bare)
    (bare : ∀ layer ∈ inner, layer.Bare) (p : Path) (isDir : Bool) :
    f.skips inner p isDir = isHidden p := by
  unfold Frame.skips
  simp only
  rw [Layer.judge_bare]
  intro layer member
  rcases List.mem_append.mp member with member | member
  · obtain ⟨layer, there, rfl⟩ := List.mem_map.mp member
    exact bare layer there
  · obtain ⟨layer, there, rfl⟩ := List.mem_map.mp member
    exact outer layer there

theorem find?_behind (node : Node) (fresh : name ∉ t.names) {n : String} {found : Node}
    (h : t.find? n = some found) : (Listing.cons name node t).find? n = some found := by
  have other : name ≠ n := by
    rintro rfl
    rw [Listing.find?_eq_none fresh] at h
    cases h
  rw [Listing.find?_cons, if_neg other, h]

/-- One more entry with a name of its own. -/
theorem Grouped.cons (node : Node) {parts : List (String × List Path)} (h : Grouped dir t parts)
    (fresh : name ∉ t.names)
    (here : Lists dir (Listing.cons name node t) (fun names => names.head? = some name) files) :
    Grouped dir (Listing.cons name node t) ((name, files) :: parts) := by
  refine ⟨by rw [List.map_cons, h.names, Listing.names_cons], ?_⟩
  refine List.forall_mem_cons.mpr ⟨here, fun part member => (h.each part member).congr ?_⟩
  have known : part.1 ∈ t.names := h.names ▸ List.mem_map_of_mem member
  have other : name ≠ part.1 := fun same => fresh (same ▸ known)
  intro names
  refine and_congr_left fun begins => ?_
  obtain ⟨more, rfl⟩ := List.head?_eq_some_iff.mp begins
  exact visible_congr (by rw [Listing.find?_cons, if_neg other])

/-- By induction on the entries of a directory, of which all stand at their place in the tree, and
on those of the directories among them. -/
theorem grouped_below (h : fs.Unruled) {f : Frame} (outer : ∀ layer ∈ f.outer, layer.Bare)
    {inner : List Layer} (bare : ∀ layer ∈ inner, layer.Bare) (proper : t.Proper)
    (there : ∀ name node, t.find? name = some node → fs.tree.node? (name :: l) = some node) :
    Grouped dir t (below f fs inner dir t) := by
  induction t generalizing inner dir l with
  | nil => exact ⟨rfl, nofun⟩
  | file name content rest ih =>
    obtain ⟨plain, fresh, further⟩ := proper
    have others : Grouped dir rest (below f fs inner dir rest) :=
      ih bare further fun n node found => there n node (find?_behind (.file content) fresh found)
    have entry : (Listing.file name content rest).find? name = some (.file content) := if_pos rfl
    rw [below, skips_of_bare outer bare]
    exact others.cons (.file content) fresh (lists_file entry (FileSystem.isName_of_plain plain))
  | dir name sub rest ihSub ih =>
    obtain ⟨plain, fresh, within, further⟩ := proper
    have others : Grouped dir rest (below f fs inner dir rest) :=
      ih bare further fun n node found => there n node (find?_behind (.dir sub) fresh found)
    have entry : (Listing.dir name sub rest).find? name = some (.dir sub) := if_pos rfl
    have here : fs.tree.node? (name :: l) = some (.dir sub) := there name (.dir sub) entry
    have layer := (Layer.ofDirectory_bare h here (dir.join name)).1
    have inside : Grouped (dir.join name) sub (below f fs
        ((Layer.ofDirectory fs (dir.join name) sub).1 :: inner) (dir.join name) sub) :=
      ihSub (List.forall_mem_cons.mpr ⟨layer, bare⟩) within
        fun n node found => (FileTree.node?_cons here).trans found
    have listed := lists_dir entry (FileSystem.isName_of_plain plain) (inside.inOrder within)
    rw [below, skips_of_bare outer bare]
    exact others.cons (.dir sub) fresh listed

/-- The directories around a location have bare layers, of which nothing is wrong. -/
theorem around_bare (h : fs.Unruled) (l : Location) :
    (∀ layer ∈ (around fs l).1, layer.Bare) ∧ (around fs l).2 = [] := by
  unfold around
  induction l.ancestors with
  | nil => exact ⟨nofun, rfl⟩
  | cons dir outer ih =>
    rw [List.foldr_cons]
    cases there : fs.tree.node? dir with
    | none => exact ih
    | some node =>
      cases node with
      | file content => exact ih
      | dir entries =>
        obtain ⟨layer, right⟩ := Layer.ofDirectory_bare h there dir.path
        simp only [ih.2, right]
        exact ⟨List.forall_mem_cons.mpr ⟨layer, ih.1⟩, rfl⟩

/-- What a walk yields for a path. -/
inductive Yields (fs : FileSystem) (p : Path) : List (Except WalkError Path) → Prop where
  /-- Standard input holds no files, also if a file goes by its name. -/
  | standardInput (asked : isStandardInput p = true) : Yields fs p []
  /-- A path that leads nowhere is one error. -/
  | missing {cause : FsError} (asked : isStandardInput p = false)
      (gone : fs.node p = .error cause) : Yields fs p [.error (.unreachable p cause)]
  /-- A path to a file is that file, hidden or not. -/
  | file {content : ByteArray} (asked : isStandardInput p = false)
      (here : fs.node p = .ok (.file content)) : Yields fs p [.ok p]
  /-- A path to a directory is the visible files below it, each once and in order. -/
  | directory {inside : Listing} {found : List (List String)} (asked : isStandardInput p = false)
      (here : fs.node p = .ok (.dir inside)) (all : ∀ names, names ∈ found ↔ Visible inside names)
      (increasing : found.Pairwise Before) (once : (found.map (List.foldl Path.join p)).Nodup) :
      Yields fs p (found.map fun names => .ok (names.foldl Path.join p))

/-- Different visible files have different paths. -/
theorem nodup_paths (proper : entries.Proper) {found : List (List String)}
    (all : ∀ names, names ∈ found ↔ Visible entries names) (increasing : found.Pairwise Before) :
    (found.map (List.foldl Path.join p)).Nodup := by
  have named (names : List String) (member : names ∈ found) :
      (∀ s ∈ names, Path.IsName s) ∧ names ≠ [] := by
    have visible := (all names).mp member
    obtain ⟨name, more, rfl, -⟩ := visible.exists_entry
    obtain ⟨⟨content, leads⟩, -⟩ := visible
    have plain := Listing.plain_of_descend? proper leads
    exact ⟨fun s hs => FileSystem.isName_of_plain (plain s hs), List.cons_ne_nil _ _⟩
  refine List.Nodup.map_on (fun a ha b hb same => ?_) ?_
  · obtain ⟨plainA, namedA⟩ := named a ha
    obtain ⟨plainB, namedB⟩ := named b hb
    exact Path.foldl_join_injective plainA namedA plainB namedB same
  · refine increasing.imp fun before => ?_
    rintro rfl
    exact List.lt_irrefl _ before

theorem yields_ofPath (h : fs.Unruled) (p : Path) : Yields fs p (ofPath fs p) := by
  unfold ofPath
  cases asked : isStandardInput p with
  | true => exact .standardInput asked
  | false =>
    rw [if_neg (by simp)]
    cases found : fs.find p with
    | error cause => exact .missing asked (by rw [FileSystem.node, found])
    | ok l =>
      cases here : fs.node p with
      | error cause => exact .missing asked here
      | ok node =>
        cases node with
        | file content => exact .file asked here
        | dir inside =>
          obtain ⟨l', again, there⟩ := FileSystem.node_eq_ok_iff.mp here
          obtain rfl : l = l' := Except.ok.inj (found.symm.trans again)
          have proper : inside.Proper := Listing.proper_of_descend? fs.tree.proper there
          obtain ⟨outer, right⟩ := around_bare h l
          have top := (Layer.ofDirectory_bare h there p).1
          have grouped : Grouped p inside
              (below ⟨p, l, (around fs l).1⟩ fs [(Layer.ofDirectory fs p inside).1] p inside) :=
            grouped_below h outer (by simpa using top) proper
              fun name node entry => (FileTree.node?_cons there).trans entry
          obtain ⟨names, files, all, increasing⟩ := grouped.inOrder proper
          simp only [and_true] at all
          simp only [right, List.isEmpty_nil, if_true, List.nil_append, files, List.map_map]
          exact .directory asked here all increasing (nodup_paths proper all increasing)

/-- Where nothing is ignored, a walk goes through its paths in their order. A path that leads
nowhere is one error and a path to a file is that file; a path to a directory is all files below it
of which no name is hidden, each once and in the order of their names. -/
theorem finds_visible (h : fs.Unruled) (paths : List Path) :
    ∃ parts, ofPaths fs paths = parts.flatten ∧ List.Forall₂ (Yields fs) paths parts := by
  refine ⟨paths.map (ofPath fs), List.flatMap_def, ?_⟩
  rw [List.forall₂_map_right_iff, List.forall₂_same]
  exact fun p _ => yields_ofPath h p

/-- A file whose name asks for standard input, and a directory with a hidden file in it. -/
def oddNames : FileSystem where
  tree :=
    { root := .file "-" .empty (.dir "d" (.file ".x." .empty (.file "y" .empty .nil)) .nil)
      proper := by
        simp only [Listing.Proper, Listing.names]
        decide }
  cwd := []

theorem unruled_oddNames : oddNames.Unruled := .of_names (by decide)

theorem finds_visible_odd : oddNames.Unruled ∧
    ofPaths oddNames [⟨"/-"⟩, ⟨"/none"⟩, ⟨"/d/.x."⟩] =
      [.ok ⟨"/-"⟩, .error (.unreachable ⟨"/none"⟩ .notFound), .ok ⟨"/d/.x."⟩] ∧
    ∃ parts, ofPaths oddNames [⟨"/-"⟩, ⟨"/none"⟩, ⟨"-"⟩, ⟨"/d"⟩] = parts.flatten ∧
      List.Forall₂ (Yields oddNames) [⟨"/-"⟩, ⟨"/none"⟩, ⟨"-"⟩, ⟨"/d"⟩] parts :=
  ⟨unruled_oddNames, by decide +kernel, finds_visible unruled_oddNames _⟩

/-- A path to a file yields nothing if it reads as standard input. -/
theorem odd_names_misread : oddNames.Unruled ∧
    oddNames.node ⟨"-"⟩ = .ok (.file .empty) ∧ ofPaths oddNames [⟨"-"⟩] = [] :=
  ⟨unruled_oddNames, by decide +kernel, by decide +kernel⟩

end Walk

end EditorConfig
