import EditorConfig.Proofs.Path
import Mathlib.Logic.Relation
/-!
# Folding

Where a path leads, told of the pieces between its separators. Taken from the left, a piece is
passed over, takes back the name before it, or is a name. In whatever order the pieces of an
absolute path are simplified, and wherever in it, the plain names that are left in the end are the
same, so folding is the one normal form of simplification.
-/
namespace EditorConfig

namespace Path

/-- What stands between the separators of a path. -/
def pieces (p : Path) : List (List Char) := p.text.toList.splitOn '/'

/-- The path that pieces make up. -/
def ofPieces (pieces : List (List Char)) : Path := ⟨String.ofList (['/'].intercalate pieces)⟩

/-- One simplification of the pieces behind the root. -/
inductive Simplifies : List (List Char) → List (List Char) → Prop
  /-- Nothing and a dot are left out. -/
  | trivial (before after : List (List Char)) {piece : List Char}
      (h : piece = [] ∨ piece = ['.']) :
      Simplifies (before ++ piece :: after) (before ++ after)
  /-- Two dots take the name before them back. -/
  | back (before after : List (List Char)) {name : String} (h : IsName name) :
      Simplifies (before ++ name.toList :: ['.', '.'] :: after) (before ++ after)
  /-- There is nothing above the root. -/
  | top (after : List (List Char)) : Simplifies (['.', '.'] :: after) after

/-- Pieces that lead back to where they start. -/
inductive Detour : List (List Char) → Prop
  | dot : Detour [['.']]
  | back {name : String} (h : IsName name) : Detour [name.toList, ['.', '.']]

end Path

namespace Location
open EditorConfig.Path (IsName Simplifies Detour)

/-- What the next piece does to the names before it, the innermost first. -/
def push (names : Location) (piece : List Char) : Location :=
  if piece = [] ∨ piece = ['.'] then names
  else if piece = ['.', '.'] then names.tail
  else String.ofList piece :: names

/-- The names that are left of pieces behind the root when they are taken from the left. -/
def reduce (pieces : List (List Char)) : Location := pieces.foldl push []

/-! ## One piece -/

@[simp] theorem push_empty (names : Location) : push names [] = names := rfl

@[simp] theorem push_dot (names : Location) : push names ['.'] = names := rfl

@[simp] theorem push_dots (names : Location) : push names ['.', '.'] = names.tail := rfl

theorem push_name (names : Location) {s : String} (h : IsName s) :
    push names s.toList = s :: names := by
  have empty : s.toList ≠ [] := fun he => h.nonempty (String.toList_inj.mp he)
  have dot : s.toList ≠ ['.'] := fun he => h.not_current (String.toList_inj.mp he)
  have dots : s.toList ≠ ['.', '.'] := fun he => h.not_parent (String.toList_inj.mp he)
  rw [push, if_neg (not_or.mpr ⟨empty, dot⟩), if_neg dots, String.ofList_toList]

/-- A piece is pushed as the component that it stands for is followed. -/
theorem push_eq (names : Location) (piece : List Char) :
    push names piece = (Path.component? piece).elim names (follow names) := by
  unfold Path.component?
  split
  · rfl
  · rfl
  · rfl
  · next empty dot dots =>
    rw [push, if_neg (not_or.mpr ⟨empty, dot⟩), if_neg dots]
    rfl

/-- A piece that is passed over, takes back or is a name. -/
theorem piece_cases {piece : List Char} (h : '/' ∉ piece) :
    (piece = [] ∨ piece = ['.']) ∨ piece = ['.', '.'] ∨
      ∃ s : String, IsName s ∧ piece = s.toList := by
  by_cases trivial : piece = [] ∨ piece = ['.']
  · exact .inl trivial
  · by_cases dots : piece = ['.', '.']
    · exact .inr (.inl dots)
    · rw [not_or] at trivial
      refine .inr (.inr ⟨String.ofList piece, ⟨?_, ?_, ?_, ?_⟩, String.toList_ofList.symm⟩)
      · exact fun he => trivial.1 (by simpa using congrArg String.toList he)
      · exact fun he => trivial.2 (by simpa using congrArg String.toList he)
      · exact fun he => dots (by simpa using congrArg String.toList he)
      · rwa [String.toList_ofList]

/-! ## Many pieces -/

theorem foldl_push (names : Location) (pieces : List (List Char)) :
    pieces.foldl push names = (pieces.filterMap Path.component?).foldl follow names := by
  induction pieces generalizing names with
  | nil => rfl
  | cons piece rest ih =>
    rw [List.foldl_cons, ih, push_eq]
    cases h : Path.component? piece <;> simp [h]

theorem foldl_push_names (here names : Location) (h : ∀ s ∈ names, IsName s) :
    (names.map String.toList).foldl push here = names.reverse ++ here := by
  induction names generalizing here with
  | nil => rfl
  | cons s names ih =>
    rw [List.forall_mem_cons] at h
    rw [List.map_cons, List.foldl_cons, push_name here h.1, ih _ h.2]
    simp

theorem foldl_push_detour {detour : List (List Char)} (h : Detour detour) (here : Location) :
    detour.foldl push here = here := by
  cases h with
  | dot => rfl
  | back h => rw [List.foldl_cons, push_name here h]; rfl

/-- Folding takes the pieces of a path from the left, an absolute one from the root. -/
theorem fold_eq (here : Location) (p : Path) :
    fold here p = p.pieces.foldl push (if p.isAbsolute then [] else here) := by
  rw [fold, Path.components, Path.pieces, Path.isAbsolute, Path.anatomy, List.foldl_append]
  split
  · next s hs =>
    simp [hs, Path.splitOn_separator_cons, foldl_push, Path.Anchor.components, follow]
  · next relative =>
    have head : (p.text.toList.head? == some '/') = false := by
      rw [beq_eq_false_iff_ne]
      intro he
      obtain ⟨s, hs⟩ := List.head?_eq_some_iff.mp he
      exact relative s hs
    rw [head]
    split
    · next pieces hp => simp [hp, foldl_push, Path.Anchor.components, follow]
    · simp [foldl_push, Path.Anchor.components]

theorem reduce_concat (pieces : List (List Char)) (piece : List Char) :
    reduce (pieces ++ [piece]) = push (reduce pieces) piece := List.foldl_concat ..

theorem reduce_names {l : Location} (h : ∀ s ∈ l, IsName s) :
    reduce (l.reverse.map String.toList) = l := by
  rw [reduce, foldl_push_names [] _ fun s hs => h s (List.mem_reverse.mp hs), List.append_nil,
    List.reverse_reverse]

/-- What is left are plain names. -/
theorem isName_reduce {pieces : List (List Char)} (h : ∀ piece ∈ pieces, '/' ∉ piece) :
    ∀ s ∈ reduce pieces, IsName s := by
  induction pieces using List.reverseRecOn with
  | nil => exact nofun
  | append_singleton pieces piece ih =>
    have names := ih fun p hp => h p (List.mem_append_left _ hp)
    rw [reduce_concat]
    rcases piece_cases (h piece (by simp)) with (rfl | rfl) | rfl | ⟨s, hs, rfl⟩
    · exact names
    · exact names
    · exact fun s hs => names s (List.mem_of_mem_tail hs)
    · rw [push_name _ hs]
      exact List.forall_mem_cons.mpr ⟨hs, names⟩

/-! ## Simplification -/

/-- A simplification anywhere among the pieces does not change what is left. -/
theorem reduce_of_simplifies {pieces pieces' : List (List Char)}
    (h : Simplifies pieces pieces') : reduce pieces = reduce pieces' := by
  cases h with
  | trivial before after h =>
    rcases h with rfl | rfl <;> simp [reduce]
  | back before after h => simp [reduce, push_name _ h]
  | top => rfl

theorem reduce_of_simplified {pieces pieces' : List (List Char)}
    (h : Relation.ReflTransGen Simplifies pieces pieces') : reduce pieces = reduce pieces' := by
  induction h with
  | refl => rfl
  | tail _ step ih => exact ih.trans (reduce_of_simplifies step)

theorem simplifies_append_right {pieces pieces' : List (List Char)}
    (h : Simplifies pieces pieces') (behind : List (List Char)) :
    Simplifies (pieces ++ behind) (pieces' ++ behind) := by
  cases h with
  | trivial before after h => simpa using Simplifies.trivial before (after ++ behind) h
  | back before after h => simpa using Simplifies.back before (after ++ behind) h
  | top => exact .top _

/-- Simplification reaches the names that are left. -/
theorem simplifies_reduce {pieces : List (List Char)} (h : ∀ piece ∈ pieces, '/' ∉ piece) :
    Relation.ReflTransGen Simplifies pieces ((reduce pieces).reverse.map String.toList) := by
  induction pieces using List.reverseRecOn with
  | nil => exact .refl
  | append_singleton pieces piece ih =>
    have inside : ∀ piece ∈ pieces, '/' ∉ piece := fun p hp => h p (List.mem_append_left _ hp)
    have front : Relation.ReflTransGen Simplifies (pieces ++ [piece])
        ((reduce pieces).reverse.map String.toList ++ [piece]) :=
      (ih inside).lift (· ++ [piece]) fun _ _ step => simplifies_append_right step [piece]
    refine front.trans ?_
    rw [reduce_concat]
    rcases piece_cases (h piece (by simp)) with trivial | rfl | ⟨s, hs, rfl⟩
    · have step := Simplifies.trivial ((reduce pieces).reverse.map String.toList) [] trivial
      rw [List.append_nil] at step
      rcases trivial with rfl | rfl <;> exact .single step
    · cases hnames : reduce pieces with
      | nil => exact .single (.top [])
      | cons last names =>
        have name : IsName last := isName_reduce inside last (hnames ▸ List.mem_cons_self)
        have step := Simplifies.back (names.reverse.map String.toList) [] name
        rw [List.append_nil] at step
        refine .single ?_
        simpa using step
    · rw [push_name _ hs]
      simp only [List.reverse_cons, List.map_append, List.map_singleton]
      exact .refl

/-- The names that are left are the only plain names that simplification ends with. -/
theorem normal_form_iff {pieces : List (List Char)} (h : ∀ piece ∈ pieces, '/' ∉ piece)
    (names : List String) :
    (Relation.ReflTransGen Simplifies pieces (names.map String.toList) ∧ ∀ s ∈ names, IsName s) ↔
      names = (reduce pieces).reverse := by
  constructor
  · rintro ⟨simplified, plain⟩
    have same := reduce_names (l := names.reverse) fun s hs => plain s (List.mem_reverse.mp hs)
    rw [List.reverse_reverse] at same
    rw [reduce_of_simplified simplified, same, List.reverse_reverse]
  · rintro rfl
    exact ⟨simplifies_reduce h, fun s hs => isName_reduce h s (List.mem_reverse.mp hs)⟩

end Location

/-! ## Pieces of a path -/

namespace Path

theorem not_mem_of_mem_pieces {p : Path} {piece : List Char} (h : piece ∈ p.pieces) :
    '/' ∉ piece := Text.not_mem_of_mem_splitOn h

theorem pieces_ofPieces {pieces : List (List Char)} (h : ∀ piece ∈ pieces, '/' ∉ piece)
    (hne : pieces ≠ []) : (ofPieces pieces).pieces = pieces := by
  rw [Path.pieces, ofPieces, String.toList_ofList, List.splitOn_intercalate '/' h hne]

theorem text_eq_empty_iff {p : Path} : p.text = "" ↔ p.pieces = [[]] := by
  constructor
  · intro h
    rw [pieces, h]
    rfl
  · intro h
    have whole : ['/'].intercalate p.pieces = p.text.toList := List.intercalate_splitOn '/'
    rw [h] at whole
    exact String.toList_inj.mp whole.symm

/-- A path is absolute if nothing stands in front of its first separator. -/
theorem isAbsolute_iff {p : Path} (named : p.text ≠ "") :
    p.isAbsolute = true ↔ p.pieces.head? = some [] := by
  rw [isAbsolute, beq_iff_eq]
  constructor
  · intro h
    obtain ⟨s, hs⟩ := List.head?_eq_some_iff.mp h
    rw [pieces, hs, splitOn_separator_cons]
    rfl
  · intro h
    obtain ⟨rest, hrest⟩ := List.head?_eq_some_iff.mp h
    have whole : ['/'].intercalate p.pieces = p.text.toList := List.intercalate_splitOn '/'
    rw [hrest] at whole
    cases rest with
    | nil => exact absurd (text_eq_empty_iff.mpr hrest) named
    | cons piece rest =>
      rw [List.intercalate_cons_cons] at whole
      rw [← whole]
      rfl

theorem Detour.pieces_inside {detour : List (List Char)} (h : Detour detour) :
    ∀ piece ∈ detour, '/' ∉ piece := by
  cases h with
  | dot => decide
  | back h => exact List.forall_mem_cons.mpr ⟨h.no_separator, by decide⟩

theorem Detour.exists_cons {detour : List (List Char)} (h : Detour detour) :
    ∃ first rest, detour = first :: rest ∧ first ≠ [] := by
  cases h with
  | dot => exact ⟨['.'], [], rfl, by decide⟩
  | back h => exact ⟨_, _, rfl, fun he => h.nonempty (String.toList_inj.mp he)⟩

/-- Pieces that lead back to where they start, put in anywhere behind the root, change neither where
a path starts nor where it leads. -/
theorem insert_detour {p : Path} {before after detour : List (List Char)} (named : p.text ≠ "")
    (written : p.pieces = before ++ after) (rooted : p.isAbsolute = true → before ≠ [])
    (h : Detour detour) :
    let q := ofPieces (before ++ detour ++ after)
    q.text ≠ "" ∧ q.isAbsolute = p.isAbsolute ∧
      ∀ here, Location.fold here q = Location.fold here p := by
  intro q
  obtain ⟨first, rest, hdetour, hfirst⟩ := h.exists_cons
  have pieces : q.pieces = before ++ detour ++ after := by
    refine pieces_ofPieces ?_ (by simp [hdetour])
    intro piece hpiece
    rcases List.mem_append.mp hpiece with hpiece | hpiece
    · rcases List.mem_append.mp hpiece with hpiece | hpiece
      · exact not_mem_of_mem_pieces (written ▸ List.mem_append_left _ hpiece)
      · exact h.pieces_inside piece hpiece
    · exact not_mem_of_mem_pieces (written ▸ List.mem_append_right _ hpiece)
  have namedToo : q.text ≠ "" := by
    intro empty
    have inside : first ∈ q.pieces := by simp [pieces, hdetour]
    rw [text_eq_empty_iff.mp empty, List.mem_singleton] at inside
    exact hfirst inside
  have start : q.isAbsolute = p.isAbsolute := by
    rw [Bool.eq_iff_iff, isAbsolute_iff namedToo, pieces, hdetour]
    cases before with
    | nil => exact iff_of_false (fun he => hfirst (Option.some.inj he)) fun he => rooted he rfl
    | cons beginning before =>
      rw [isAbsolute_iff named, written]
      rfl
  refine ⟨namedToo, start, fun here => ?_⟩
  rw [Location.fold_eq, Location.fold_eq, start, pieces, written, List.foldl_append,
    List.foldl_append, List.foldl_append, Location.foldl_push_detour h]

end Path

namespace Location
open EditorConfig.Path (IsName)

/-- A path that is made absolute leads from the root to where it led from its directory. -/
theorem reduce_join {dir : Location} {p : Path}
    (h : p.isAbsolute = true ∨ ∀ s ∈ dir, IsName s) :
    reduce (dir.path.join p.text).pieces = fold dir p := by
  obtain ⟨text⟩ := p
  rw [fold_eq]
  by_cases absolute : (Path.mk text).isAbsolute = true
  · rw [Path.join, if_pos absolute, if_pos absolute]
    rfl
  · have names := h.resolve_left absolute
    rw [if_neg absolute, Path.pieces, splitOn_join names (by simpa using absolute), reduce,
      List.foldl_cons, List.foldl_append, push_empty, ← reduce, reduce_names names]
    rfl

/-- A location written as a path leads to itself. -/
theorem fold_path {l : Location} (h : ∀ s ∈ l, IsName s) (here : Location) :
    fold here l.path = l := by
  have steps : ∀ names here : Location,
      (names.map Path.Component.name).foldl follow here = names.reverse ++ here := by
    intro names
    induction names with
    | nil => exact fun _ => rfl
    | cons s names ih =>
      intro here
      rw [List.map_cons, List.foldl_cons, ih, List.reverse_cons, List.append_assoc]
      rfl
  rw [fold, components_path h, components, List.foldl_cons, steps, List.reverse_reverse,
    follow, List.append_nil]

end Location

end EditorConfig
