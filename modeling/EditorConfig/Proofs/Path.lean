import EditorConfig.FileSystem
import EditorConfig.Proofs.Text
/-!
# Locations as paths

The names of a folded location each stand for themselves. Such a location is written as a path and
read back component by component, and a name joined to it is taken off again by asking for the
directory.
-/
namespace EditorConfig

namespace Path

theorem ext_toList {p q : Path} (h : p.text.toList = q.text.toList) : p = q := by
  cases p
  cases q
  exact congrArg Path.mk (String.toList_inj.mp h)

/-- A text that stands for itself as a component of a path. -/
structure IsName (s : String) : Prop where
  nonempty : s ≠ ""
  not_current : s ≠ "."
  not_parent : s ≠ ".."
  no_separator : '/' ∉ s.toList

theorem IsName.toList_ne_nil {name : String} (h : IsName name) : name.toList ≠ [] :=
  fun he => h.nonempty (String.toList_eq_nil_iff.mp he)

/-- What begins with a name is not written from the root. -/
theorem IsName.relative_append {name : String} (h : IsName name) (s : String) :
    isAbsolute ⟨name ++ s⟩ = false := by
  obtain ⟨c, rest, first⟩ := List.exists_cons_of_ne_nil h.toList_ne_nil
  have head : c ≠ '/' := fun he => h.no_separator (first ▸ he ▸ List.mem_cons_self)
  simp [isAbsolute, first, head]

theorem IsName.relative {name : String} (h : IsName name) : isAbsolute ⟨name⟩ = false := by
  simpa using h.relative_append ""

theorem component?_eq_name {piece : List Char} {s : String}
    (h : component? piece = some (.name s)) :
    piece = s.toList ∧ s ≠ "" ∧ s ≠ "." ∧ s ≠ ".." := by
  unfold component? at h
  split at h
  · cases h
  · cases h
  · cases h
  · next hempty hdot hdots =>
    obtain rfl := Component.name.inj (Option.some.inj h)
    refine ⟨String.toList_ofList.symm, ?_, ?_, ?_⟩
    · intro he
      exact hempty (by simpa using congrArg String.toList he)
    · intro he
      exact hdot (by simpa using congrArg String.toList he)
    · intro he
      exact hdots (by simpa using congrArg String.toList he)

theorem component?_toList {s : String} (h : IsName s) :
    component? s.toList = some (.name s) := by
  unfold component?
  split
  · next he => exact absurd (String.toList_inj.mp he) h.nonempty
  · next he => exact absurd (String.toList_inj.mp he) h.not_current
  · next he => exact absurd (String.toList_inj.mp he) h.not_parent
  · rw [String.ofList_toList]

/-- Pieces that are joined are found again when every one of them stands for itself. -/
theorem filterMap_component? {names : List String} (h : ∀ s ∈ names, IsName s) :
    (names.map String.toList).filterMap component? = names.map .name := by
  induction names with
  | nil => rfl
  | cons s names ih =>
    rw [List.forall_mem_cons] at h
    simp [component?_toList h.1, ih h.2]

theorem splitOn_intercalate_names {names : List String} (h : ∀ s ∈ names, IsName s)
    (hne : names ≠ []) :
    (['/'].intercalate (names.map String.toList)).splitOn '/' = names.map String.toList := by
  refine List.splitOn_intercalate '/' ?_ (by simpa using hne)
  intro piece hp
  obtain ⟨s, hs, rfl⟩ := List.mem_map.mp hp
  exact (h s hs).no_separator

theorem mem_pieces {p : Path} {piece : List Char} (h : piece ∈ p.anatomy.2) : '/' ∉ piece := by
  unfold anatomy at h
  split at h
  · exact Text.not_mem_of_mem_splitOn h
  · split at h
    · next hs => exact Text.not_mem_of_mem_splitOn (hs ▸ List.mem_cons_of_mem _ h)
    · exact Text.not_mem_of_mem_splitOn h

theorem isName_of_mem_components {p : Path} {s : String} (h : .name s ∈ p.components) :
    IsName s := by
  rcases List.mem_append.mp h with h | h
  · cases ha : p.anatomy.1 <;> simp [ha, Anchor.components] at h
  · obtain ⟨piece, hp, hs⟩ := List.mem_filterMap.mp h
    obtain ⟨rfl, hempty, hdot, hdots⟩ := component?_eq_name hs
    exact ⟨hempty, hdot, hdots, mem_pieces hp⟩

theorem anatomy_of_isAbsolute {p : Path} (h : p.isAbsolute = true) :
    ∃ s, p.anatomy = (.root, s.splitOn '/') ∧ p.text.toList = '/' :: s := by
  have head : p.text.toList.head? = some '/' := by simpa [isAbsolute] using h
  obtain ⟨s, hs⟩ := List.head?_eq_some_iff.mp head
  refine ⟨s, ?_, hs⟩
  unfold anatomy
  simp [hs]

theorem components_of_isAbsolute {p : Path} (h : p.isAbsolute = true) :
    ∃ cs, p.components = .root :: cs := by
  obtain ⟨s, read, -⟩ := anatomy_of_isAbsolute h
  exact ⟨_, by rw [components, read]; rfl⟩

theorem splitOn_separator_cons (s : List Char) : ('/' :: s).splitOn '/' = [] :: s.splitOn '/' :=
  List.splitOn_append_cons_self [] s

/-- Behind its beginning, a path has the components of what stands between its separators. -/
theorem components_eq (p : Path) : p.components =
    p.anatomy.1.components ++ (p.text.toList.splitOn '/').filterMap component? := by
  rw [components]
  congr 1
  unfold anatomy
  split
  · next s hs =>
    rw [hs, splitOn_separator_cons]
    rfl
  · split
    · next pieces hp => rw [hp]; rfl
    · rfl

/-- What has a name as its only component is not written from the root or with a dot in front, and
between its separators stands nothing else that counts. -/
theorem of_components_eq_name {name s : String} (h : (Path.mk name).components = [.name s]) :
    isAbsolute ⟨name⟩ = false ∧ (name.toList.splitOn '/').filterMap component? = [.name s] := by
  constructor
  · rw [← Bool.not_eq_true]
    intro absolute
    obtain ⟨cs, hcs⟩ := components_of_isAbsolute absolute
    rw [h] at hcs
    cases hcs
  · rw [components_eq] at h
    cases anchor : (Path.mk name).anatomy.1 with
    | root => simp [anchor, Anchor.components] at h
    | current => simp [anchor, Anchor.components] at h
    | nothing => simpa [anchor, Anchor.components] using h

/-- A name is exactly a path that has itself as its only component. -/
theorem isName_iff {s : String} : IsName s ↔ (Path.mk s).components = [.name s] := by
  constructor
  · intro h
    have pieces : s.toList.splitOn '/' = [s.toList] := List.splitOn_eq_singleton h.no_separator
    have read : (Path.mk s).anatomy = (.nothing, [s.toList]) := by
      unfold anatomy
      split
      · next he => exact absurd (he ▸ List.mem_cons_self) h.no_separator
      · rw [pieces]
        split
        · next he =>
          have hdot := (List.cons.inj he).1
          exact absurd (String.toList_inj.mp hdot) h.not_current
        · rfl
    simp [components, read, Anchor.components, component?_toList h]
  · intro h
    exact isName_of_mem_components (p := ⟨s⟩) (h ▸ List.mem_singleton_self _)

/-! ## Pieces at the end that stand for nothing -/

theorem dropTrivialEnd_append {kept trivial : List (List Char)}
    (h : ∀ piece ∈ trivial, component? piece = none) :
    dropTrivialEnd (kept ++ trivial) = dropTrivialEnd kept := by
  have passed : ∀ piece ∈ trivial.reverse, (component? piece).isNone = true :=
    fun piece hpiece => Option.isNone_iff_eq_none.mpr (h piece (List.mem_reverse.mp hpiece))
  rw [dropTrivialEnd, List.reverse_append, List.dropWhile_append_of_pos passed]
  rfl

theorem dropTrivialEnd_concat {front : List (List Char)} {last : List Char} {c : Component}
    (h : component? last = some c) : dropTrivialEnd (front ++ [last]) = front ++ [last] := by
  simp [dropTrivialEnd, h]

end Path

namespace Location
open EditorConfig.Path (IsName)

/-! ## Writing a location -/

theorem toList_path (l : Location) :
    l.path.text.toList = '/' :: ['/'].intercalate (l.reverse.map String.toList) :=
  String.toList_ofList

theorem anatomy_path {l : Location} (h : ∀ s ∈ l, IsName s) (hne : l ≠ []) :
    l.path.anatomy = (.root, l.reverse.map String.toList) := by
  have names : ∀ s ∈ l.reverse, IsName s := fun s hs => h s (List.mem_reverse.mp hs)
  unfold Path.anatomy
  simp only [toList_path]
  rw [Path.splitOn_intercalate_names names (by simpa using hne)]

theorem components_path {l : Location} (h : ∀ s ∈ l, IsName s) :
    l.path.components = l.components := by
  cases l with
  | nil => rfl
  | cons s outer =>
    have names : ∀ t ∈ (s :: outer).reverse, IsName t := fun t ht => h t (List.mem_reverse.mp ht)
    rw [Path.components, anatomy_path h (by simp)]
    simp only [Path.filterMap_component? names]
    rfl

theorem dropTrivialEnd_names {names : List String} (h : ∀ s ∈ names, IsName s) :
    Path.dropTrivialEnd (names.map String.toList) = names.map String.toList := by
  rcases List.eq_nil_or_concat names with rfl | ⟨inits, last, rfl⟩
  · rfl
  · have hlast := Path.component?_toList (h last (by simp))
    rw [List.concat_eq_append, List.map_append, List.map_singleton,
      Path.dropTrivialEnd_concat hlast]

theorem toList_path_singleton (name : String) :
    (path [name]).text.toList = '/' :: name.toList := by
  rw [toList_path]
  simp

theorem toList_path_cons {l : Location} (hne : l ≠ []) (name : String) :
    (path (name :: l)).text.toList = l.path.text.toList ++ '/' :: name.toList := by
  have append : ∀ pieces : List (List Char), pieces ≠ [] → ∀ last : List Char,
      ['/'].intercalate (pieces ++ [last]) = ['/'].intercalate pieces ++ '/' :: last := by
    intro pieces hpieces last
    induction pieces with
    | nil => exact absurd rfl hpieces
    | cons first others ih =>
      cases others with
      | nil => simp
      | cons second others => simpa using ih (by simp)
  rw [toList_path, toList_path, List.reverse_cons, List.map_append, List.map_singleton,
    append _ (by simpa using hne), List.cons_append]

/-- Only the path of the root ends in a separator. -/
theorem getLast?_path {name : String} {l : Location} (h : IsName name) :
    ((path (name :: l)).text.toList.getLast?.all (· == '/')) = false := by
  have ends : ∃ front, (path (name :: l)).text.toList = front ++ name.toList := by
    by_cases hne : l = []
    · exact ⟨['/'], by rw [hne, toList_path_singleton]; rfl⟩
    · exact ⟨l.path.text.toList ++ ['/'], by rw [toList_path_cons hne]; simp⟩
  obtain ⟨front, hfront⟩ := ends
  have hne : name.toList ≠ [] := fun he => h.nonempty (String.toList_inj.mp he)
  rw [hfront, List.getLast?_append, List.getLast?_eq_some_getLast hne]
  have last : name.toList.getLast hne ≠ '/' :=
    fun he => h.no_separator (he ▸ List.getLast_mem hne)
  simpa using last

theorem join_path {l : Location} {name : String} (hl : ∀ s ∈ l, IsName s) (h : IsName name) :
    l.path.join name = Location.path (name :: l) := by
  rw [Path.join, if_neg (by simp [h.relative])]
  apply Path.ext_toList
  cases l with
  | nil =>
    have ending : (path []).text.toList.getLast?.all (· == '/') = true := rfl
    rw [if_pos ending, String.toList_append, toList_path, toList_path_singleton]
    rfl
  | cons s outer =>
    rw [List.forall_mem_cons] at hl
    rw [if_neg (by simp [getLast?_path hl.1]), toList_path_cons (by simp)]
    simp [String.toList_append]

/-- A path that is joined to a location is absolute, whatever it is. -/
theorem isAbsolute_join (l : Location) (name : String) : (l.path.join name).isAbsolute = true := by
  unfold Path.join
  split
  · next h => exact h
  · split
    · simp [Path.isAbsolute, String.toList_append, toList_path]
    · simp [Path.isAbsolute, String.toList_append, toList_path]

theorem splitOn_path {l : Location} (h : ∀ s ∈ l, IsName s) (hne : l ≠ []) :
    l.path.text.toList.splitOn '/' = [] :: l.reverse.map String.toList := by
  have names : ∀ s ∈ l.reverse, IsName s := fun s hs => h s (List.mem_reverse.mp hs)
  rw [toList_path, Path.splitOn_separator_cons,
    Path.splitOn_intercalate_names names (by simpa using hne)]

/-- What stands between the separators of a path that is joined to a location. -/
theorem splitOn_join {l : Location} {name : String} (hl : ∀ s ∈ l, IsName s)
    (relative : Path.isAbsolute ⟨name⟩ = false) : (l.path.join name).text.toList.splitOn '/' =
      [] :: (l.reverse.map String.toList ++ name.toList.splitOn '/') := by
  rw [Path.join, if_neg (by simp [relative])]
  cases l with
  | nil =>
    have ending : (path []).text.toList.getLast?.all (· == '/') = true := rfl
    rw [if_pos ending, String.toList_append]
    exact Path.splitOn_separator_cons name.toList
  | cons s outer =>
    have ending := getLast?_path (l := outer) (hl s List.mem_cons_self)
    rw [if_neg (by simp [ending]), String.toList_append, String.toList_append, List.append_assoc]
    refine (List.splitOn_append_cons_self (path (s :: outer)).text.toList name.toList).trans ?_
    rw [splitOn_path hl (by simp), List.cons_append]

theorem anatomy_join {l : Location} {name : String} (hl : ∀ s ∈ l, IsName s)
    (relative : Path.isAbsolute ⟨name⟩ = false) :
    (l.path.join name).anatomy =
      (.root, l.reverse.map String.toList ++ name.toList.splitOn '/') := by
  obtain ⟨s, anatomy, text⟩ := Path.anatomy_of_isAbsolute (isAbsolute_join l name)
  have pieces := splitOn_join hl relative
  rw [text, Path.splitOn_separator_cons] at pieces
  rw [anatomy, List.tail_eq_of_cons_eq pieces]

/-- What is joined to a location and has one name as its only component lies in that location,
whatever else is written around the name. -/
theorem directory_join_of_components {l : Location} {name s : String} (hl : ∀ s ∈ l, IsName s)
    (h : (Path.mk name).components = [.name s]) : (l.path.join name).directory = l.path := by
  obtain ⟨relative, pieces⟩ := Path.of_components_eq_name h
  obtain ⟨before, last, after, written, passed, stands, behind⟩ :=
    List.filterMap_eq_cons_iff.mp pieces
  have anatomy : (l.path.join name).anatomy =
      (.root, l.reverse.map String.toList ++ before ++ [last] ++ after) := by
    rw [anatomy_join hl relative, written]
    simp
  have kept : Path.dropTrivialEnd (l.reverse.map String.toList ++ before ++ [last] ++ after) =
      l.reverse.map String.toList ++ before ++ [last] := by
    rw [Path.dropTrivialEnd_append (List.filterMap_eq_nil_iff.mp behind),
      Path.dropTrivialEnd_concat stands]
  have names := dropTrivialEnd_names fun s hs => hl s (List.mem_reverse.mp hs)
  rw [Path.directory, Path.parent?]
  simp only [anatomy, kept]
  split
  · next he => simp at he
  · rw [List.dropLast_concat, Path.dropTrivialEnd_append passed, names]
    rfl

theorem directory_join {l : Location} {name : String} (hl : ∀ s ∈ l, IsName s)
    (h : IsName name) : (l.path.join name).directory = l.path :=
  directory_join_of_components hl (Path.isName_iff.mp h)

/-! ## Folding -/

theorem isName_follow {here : Location} {c : Path.Component} (hhere : ∀ s ∈ here, IsName s)
    (hc : ∀ s, c = .name s → IsName s) : ∀ s ∈ follow here c, IsName s := by
  cases c with
  | root => simp [follow]
  | current => exact hhere
  | parent => exact fun s hs => hhere s (List.mem_of_mem_tail hs)
  | name s => exact List.forall_mem_cons.mpr ⟨hc s rfl, hhere⟩

theorem isName_fold {here : Location} {p : Path} (h : ∀ s ∈ here, IsName s) :
    ∀ s ∈ fold here p, IsName s := by
  have run : ∀ cs : List Path.Component, (∀ s, .name s ∈ cs → IsName s) →
      ∀ here : Location, (∀ s ∈ here, IsName s) → ∀ s ∈ cs.foldl follow here, IsName s := by
    intro cs
    induction cs with
    | nil => exact fun _ here h => h
    | cons c cs ih =>
      intro hcs here h
      refine ih (fun s hs => hcs s (List.mem_cons_of_mem _ hs)) (follow here c) ?_
      exact isName_follow h fun s hs => hcs s (hs ▸ List.mem_cons_self)
  exact run p.components (fun s hs => Path.isName_of_mem_components hs) here h

/-- An absolute path leads to the same place from everywhere. -/
theorem fold_of_isAbsolute {here : Location} {p : Path} (h : p.isAbsolute = true) :
    fold here p = fold [] p := by
  obtain ⟨cs, hcs⟩ := Path.components_of_isAbsolute h
  rw [fold, fold, hcs]
  rfl

/-! ## Ancestors -/

theorem mem_ancestors_iff {l dir : Location} :
    dir ∈ l.ancestors ↔ ∃ names : List String, names ≠ [] ∧ l = names ++ dir := by
  induction l with
  | nil =>
    constructor
    · intro h
      cases h
    · rintro ⟨names, hne, hl⟩
      exact absurd (List.append_eq_nil_iff.mp hl.symm).1 hne
  | cons s outer ih =>
    rw [ancestors, List.mem_cons, ih]
    constructor
    · rintro (rfl | ⟨names, -, rfl⟩)
      · exact ⟨[s], by simp, rfl⟩
      · exact ⟨s :: names, by simp, rfl⟩
    · rintro ⟨names, hne, hl⟩
      obtain ⟨first, names, rfl⟩ := List.exists_cons_of_ne_nil hne
      obtain ⟨-, rfl⟩ := List.cons.inj hl
      by_cases hnil : names = []
      · exact .inl (by simp [hnil])
      · exact .inr ⟨names, hnil, rfl⟩

theorem isName_of_mem_ancestors {l dir : Location} (h : ∀ s ∈ l, IsName s)
    (hdir : dir ∈ l.ancestors) : ∀ s ∈ dir, IsName s := by
  obtain ⟨names, -, rfl⟩ := mem_ancestors_iff.mp hdir
  exact fun s hs => h s (List.mem_append_right names hs)

theorem pairwise_ancestors (l : Location) :
    l.ancestors.Pairwise fun near far => far ∈ near.ancestors := by
  induction l with
  | nil => exact .nil
  | cons s outer ih => exact .cons (fun _ h => h) ih

/-- Of two things that ancestors contribute, told from the outside, the first comes from a directory
that holds the directory of the second. -/
theorem pairwise_filterMap_ancestors {β : Type} (f : Location → Option β) (l : Location) :
    (l.ancestors.filterMap f).reverse.Pairwise fun outer inner => ∃ near ∈ l.ancestors,
      ∃ far ∈ near.ancestors, far ∈ l.ancestors ∧ f near = some inner ∧ f far = some outer := by
  rw [List.pairwise_reverse, List.pairwise_filterMap]
  refine List.Pairwise.imp_of_mem ?_ (pairwise_ancestors l)
  intro near far hnear hfar further inner hinner outer houter
  exact ⟨near, hnear, far, further, hfar, hinner, houter⟩

theorem nodup_ancestors (l : Location) : l.ancestors.Nodup := by
  refine (pairwise_ancestors l).imp ?_
  rintro near far hfar rfl
  obtain ⟨names, hne, hl⟩ := mem_ancestors_iff.mp hfar
  exact hne (List.self_eq_append_left.mp hl)

theorem mapM_name? {cs : List Path.Component} {names : List String} :
    cs.mapM name? = some names ↔ cs = names.map .name := by
  induction cs generalizing names with
  | nil => cases names <;> simp
  | cons c cs ih =>
    cases hcs : cs.mapM name? with
    | none =>
      cases names with
      | nil => cases c <;> simp [List.mapM_cons, name?, hcs]
      | cons s names =>
        have hne : cs ≠ names.map .name := fun he => by simp [ih.mpr he] at hcs
        cases c <;> simp [List.mapM_cons, name?, hcs, hne]
    | some inner =>
      obtain rfl := ih.mp hcs
      cases names with
      | nil => cases c <;> simp [List.mapM_cons, name?, hcs]
      | cons s names =>
        have same : inner.map Path.Component.name = names.map .name ↔ inner = names := by
          rw [← ih, hcs, Option.some_inj]
        cases c <;> simp [List.mapM_cons, name?, hcs, same]

/-- A location is seen from the directories whose components it begins with, if only names
follow. -/
theorem relativeTo?_eq_some_iff {l : Location} {dir : Path} {relative : String} :
    l.relativeTo? dir = some relative ↔
      ∃ names : List String, l.components = dir.components ++ names.map .name ∧
        relative = joined names := by
  unfold relativeTo?
  constructor
  · intro h
    split at h
    · next hp =>
      obtain ⟨names, hnames, rfl⟩ := Option.map_eq_some_iff.mp h
      rw [mapM_name?] at hnames
      obtain ⟨inner, hinner⟩ := List.isPrefixOf_iff_prefix.mp hp
      refine ⟨names, ?_, rfl⟩
      rw [← hnames, ← hinner, List.drop_left]
    · cases h
  · rintro ⟨names, hl, rfl⟩
    have hp : dir.components.isPrefixOf l.components = true :=
      List.isPrefixOf_iff_prefix.mpr ⟨_, hl.symm⟩
    rw [if_pos hp, hl, List.drop_left, mapM_name?.mpr rfl]
    rfl

end Location

/-! ## Locating a target -/

namespace Listing

theorem plain_of_find? {name : String} {node : Node} {l : Listing} (hl : l.Proper)
    (h : l.find? name = some node) : Plain name := by
  induction l with
  | nil => cases h
  | file n content rest ih =>
    obtain ⟨hn, -, hrest⟩ := hl
    by_cases he : n = name
    · exact he ▸ hn
    · exact ih hrest (by simpa [find?, he] using h)
  | dir n sub rest _ ih =>
    obtain ⟨hn, -, -, hrest⟩ := hl
    by_cases he : n = name
    · exact he ▸ hn
    · exact ih hrest (by simpa [find?, he] using h)

theorem plain_of_descend? {names : List String} {node : Node} {l : Listing} (hl : l.Proper)
    (h : l.descend? names = some node) : ∀ s ∈ names, Plain s := by
  induction names generalizing l with
  | nil => simp
  | cons name inner ih =>
    unfold descend? at h
    split at h
    · next sub hfound =>
      refine List.forall_mem_cons.mpr ⟨plain_of_find? hl hfound, ?_⟩
      exact ih (proper_of_find? hl hfound) h
    · next hfound =>
      exact List.forall_mem_cons.mpr ⟨plain_of_find? hl hfound, by simp⟩
    · cases h

end Listing

namespace FileSystem
open EditorConfig.Path (IsName)

theorem isName_of_plain {s : String} (h : Plain s) : IsName s :=
  ⟨h.1, h.2.1, h.2.2.1, h.2.2.2.1⟩

theorem isName_of_isDir {t : FileTree} {l : Location} (h : t.isDir l = true) :
    ∀ s ∈ l, IsName s := by
  obtain ⟨node, hnode, -⟩ := (Option.any_eq_true _ _).mp h
  exact fun s hs => isName_of_plain
    (Listing.plain_of_descend? t.proper hnode s (List.mem_reverse.mpr hs))

/-- A target is located by names alone, from wherever it is read. -/
theorem isName_of_locate {fs : FileSystem} {target : Path} {l : Location}
    (h : fs.locate target = .ok l) : ∀ s ∈ l, IsName s := by
  unfold locate at h
  split at h
  · cases h
  · split at h
    · cases h
    · next hstart =>
      obtain rfl := Except.ok.inj h
      by_cases hcwd : fs.tree.isDir fs.cwd = true
      · exact Location.isName_fold (isName_of_isDir hcwd)
      · have absolute : target.isAbsolute = true := by simpa [hcwd] using hstart
        rw [Location.fold_of_isAbsolute absolute]
        exact Location.isName_fold (by simp)

/-- An absolute target is located without asking the file system. -/
theorem locate_of_isAbsolute {fs : FileSystem} {p : Path} (h : p.isAbsolute = true) :
    fs.locate p = .ok (Location.fold [] p) := by
  have hne : p.text ≠ "" := by
    intro he
    simp [Path.isAbsolute, he] at h
  rw [locate, if_neg hne, if_neg (by simp [h]), Location.fold_of_isAbsolute h]

/-- What an absolute path leads to is the same from every current directory. -/
theorem node_eq_of_tree {fs fs' : FileSystem} {p : Path} (htree : fs.tree = fs'.tree)
    (h : p.isAbsolute = true) : fs.node p = fs'.node p := by
  have start_eq : fs.start p = fs'.start p := by
    have head : p.text.toList.head? = some '/' := by simpa [Path.isAbsolute] using h
    obtain ⟨s, hs⟩ := List.head?_eq_some_iff.mp head
    unfold start
    simp [hs]
  unfold node find
  rw [start_eq, htree]

end FileSystem

end EditorConfig
