import EditorConfig.Proofs.Glob.Language
/-!
# Reading braces

The closing brace that the reader finds is the one that leaves a balanced text between the braces,
and the parts into which it splits a balanced text are its branches.
-/
namespace EditorConfig.Glob

theorem Balanced.append {s t : List Char} (hs : Balanced s) (ht : Balanced t) :
    Balanced (s ++ t) := by
  induction hs with
  | nil => exact ht
  | plain escape opening closing _ ih => exact .plain escape opening closing ih
  | escaped _ ih => exact .escaped ih
  | group ha _ _ ihb =>
    rw [List.append_assoc]
    exact .group ha ihb

theorem Balanced.of_plain {s : List Char} (h : ∀ c ∈ s, c ∉ ['\\', '{', '}']) : Balanced s := by
  induction s with
  | nil => exact .nil
  | cons c s ih =>
    obtain ⟨hc, hs⟩ := List.forall_mem_cons.mp h
    simp only [List.mem_cons, List.not_mem_nil, or_false, not_or] at hc
    exact .plain hc.1 hc.2.1 hc.2.2 (ih hs)

theorem Branch.balanced {s : List Char} (h : Branch s) : Balanced s := by
  induction h with
  | nil => exact .nil
  | plain escape opening closing _ _ ih => exact .plain escape opening closing ih
  | escaped _ ih => exact .escaped ih
  | group hs _ ih => exact .group hs ih

theorem balanced_intercalate {branches : List (List Char)} (h : ∀ b ∈ branches, Branch b) :
    Balanced ([','].intercalate branches) := by
  induction branches with
  | nil => exact .nil
  | cons b branches ih =>
    obtain ⟨hb, hbs⟩ := List.forall_mem_cons.mp h
    cases branches with
    | nil => simpa using hb.balanced
    | cons b' branches =>
      rw [List.intercalate_cons_cons, List.append_assoc]
      exact hb.balanced.append (.plain (by decide) (by decide) (by decide) (ih hbs))

theorem Choices.balanced {inner : List Char} {branches : List (List Char)}
    (h : Choices inner branches) : Balanced inner :=
  h.written ▸ balanced_intercalate h.branch

namespace Braces

/-! ## The closing brace -/

/-- The text closes `depth` more braces than it opens. -/
def Closing : Nat → List Char → Prop
  | 0, s => Balanced s
  | depth + 1, s => ∃ b t, s = b ++ '}' :: t ∧ Balanced b ∧ Closing depth t

theorem Closing.append {depth : Nat} {s t : List Char} (hs : Balanced s) (ht : Closing depth t) :
    Closing depth (s ++ t) := by
  cases depth with
  | zero => exact hs.append ht
  | succ depth =>
    obtain ⟨b, u, rfl, hb, hu⟩ := ht
    exact ⟨s ++ b, u, (List.append_assoc s b _).symm, hs.append hb, hu⟩

theorem close?_balanced {s : List Char} (h : Balanced s) (depth : Nat) (t : List Char) :
    close? depth (s ++ t) = (close? depth t).map fun (inner, rest) => (s ++ inner, rest) := by
  induction h generalizing depth t with
  | nil => simp
  | plain escape opening closing _ ih =>
    rw [List.cons_append, close?, ih, Option.map_map]
    · rfl
    all_goals simp_all
  | escaped _ ih =>
    rw [List.cons_append, List.cons_append, close?, ih, Option.map_map]
    rfl
  | @group a b _ _ iha ihb =>
    rw [List.append_assoc, List.cons_append, close?, iha, List.cons_append, close?, ihb]
    simp only [Option.map_map]
    congr 1
    funext found
    simp

theorem closing_of_close? {depth : Nat} {s inner rest : List Char}
    (h : close? depth s = some (inner, rest)) : s = inner ++ '}' :: rest ∧ Closing depth inner := by
  fun_induction close? depth s generalizing inner rest with
  | case1 => cases h
  | case3 => cases h
  | case5 s =>
    obtain ⟨rfl, rfl⟩ := Prod.mk.inj (Option.some.inj h)
    exact ⟨rfl, .nil⟩
  | case2 depth c s ih =>
    obtain ⟨⟨b, r⟩, hb, he⟩ := Option.map_eq_some_iff.mp h
    obtain ⟨rfl, rfl⟩ := Prod.mk.inj he
    obtain ⟨rfl, hc⟩ := ih hb
    exact ⟨rfl, Closing.append (s := ['\\', c]) (.escaped .nil) hc⟩
  | case4 depth s ih =>
    obtain ⟨⟨b, r⟩, hb, he⟩ := Option.map_eq_some_iff.mp h
    obtain ⟨rfl, rfl⟩ := Prod.mk.inj he
    obtain ⟨rfl, a, t, rfl, ha, ht⟩ := ih hb
    refine ⟨rfl, ?_⟩
    have := Closing.append (.group ha .nil) ht
    simpa using this
  | case6 depth s ih =>
    obtain ⟨⟨b, r⟩, hb, he⟩ := Option.map_eq_some_iff.mp h
    obtain ⟨rfl, rfl⟩ := Prod.mk.inj he
    obtain ⟨rfl, hc⟩ := ih hb
    exact ⟨rfl, [], b, rfl, .nil, hc⟩
  | case7 depth c s lone escape opening closing ih =>
    have hescape : c ≠ '\\' := by
      rintro rfl
      cases s with
      | nil => exact escape rfl rfl
      | cons d s => exact lone d s rfl rfl
    obtain ⟨⟨b, r⟩, hb, he⟩ := Option.map_eq_some_iff.mp h
    obtain ⟨rfl, rfl⟩ := Prod.mk.inj he
    obtain ⟨rfl, hc⟩ := ih hb
    exact ⟨rfl, Closing.append (.plain hescape opening closing .nil) hc⟩

theorem close?_eq_some_iff {s inner rest : List Char} :
    close? 0 s = some (inner, rest) ↔ s = inner ++ '}' :: rest ∧ Balanced inner := by
  constructor
  · exact closing_of_close?
  · rintro ⟨rfl, h⟩
    simp [close?_balanced h, close?]

/-! ## The branches -/

theorem onFirst_onFirst (s t : List Char) (parts : List (List Char)) :
    onFirst s (onFirst t parts) = onFirst (s ++ t) parts := by
  cases parts with
  | nil => rfl
  | cons part parts => simp [onFirst]

theorem onFirst_nil {parts : List (List Char)} (h : parts ≠ []) : onFirst [] parts = parts := by
  cases parts with
  | nil => exact (h rfl).elim
  | cons part parts => rfl

theorem intercalate_onFirst (s : List Char) (parts : List (List Char)) :
    [','].intercalate (onFirst s parts) = s ++ [','].intercalate parts := by
  match parts with
  | [] => simp [onFirst]
  | [part] => simp [onFirst]
  | part :: next :: parts => simp [onFirst, List.intercalate_cons_cons]

/-- Inside of braces nothing is split. -/
theorem split_balanced {s : List Char} (h : Balanced s) (depth : Nat) (t : List Char) :
    split (depth + 1) (s ++ t) = onFirst s (split (depth + 1) t) := by
  induction h generalizing depth t with
  | nil => exact (onFirst_nil (split_ne_nil _ _)).symm
  | plain escape opening closing _ ih =>
    rw [List.cons_append, split, ih, if_neg, onFirst_onFirst]
    · rfl
    all_goals simp_all
  | escaped _ ih =>
    rw [List.cons_append, List.cons_append, split, ih, onFirst_onFirst]
    rfl
  | group _ _ iha ihb =>
    rw [List.append_assoc, List.cons_append, split, iha, List.cons_append, split,
      Nat.add_sub_cancel, ihb]
    simp [onFirst_onFirst]

theorem split_branch {s : List Char} (h : Branch s) (t : List Char) :
    split 0 (s ++ t) = onFirst s (split 0 t) := by
  induction h generalizing t with
  | nil => exact (onFirst_nil (split_ne_nil _ _)).symm
  | plain escape opening closing comma _ ih =>
    rw [List.cons_append, split, ih, if_neg, onFirst_onFirst]
    · rfl
    all_goals simp_all
  | escaped _ ih =>
    rw [List.cons_append, List.cons_append, split, ih, onFirst_onFirst]
    rfl
  | group hs _ ih =>
    rw [List.append_assoc, List.cons_append, split, split_balanced hs, List.cons_append, split,
      Nat.add_sub_cancel, ih]
    simp [onFirst_onFirst]

theorem split_intercalate {branches : List (List Char)} (several : branches ≠ [])
    (h : ∀ b ∈ branches, Branch b) : split 0 ([','].intercalate branches) = branches := by
  induction branches with
  | nil => exact (several rfl).elim
  | cons b branches ih =>
    obtain ⟨hb, hbs⟩ := List.forall_mem_cons.mp h
    cases branches with
    | nil => simpa [split, onFirst] using split_branch hb []
    | cons b' branches =>
      have onward := ih (List.cons_ne_nil _ _) hbs
      rw [List.intercalate_cons_cons, List.append_assoc, split_branch hb, List.singleton_append]
      simp [split, onward, onFirst]

theorem exists_branches {s : List Char} (h : Balanced s) :
    ∃ branches, branches ≠ [] ∧ s = [','].intercalate branches ∧ ∀ b ∈ branches, Branch b := by
  have extend : ∀ {a t : List Char}, (∀ {b}, Branch b → Branch (a ++ b)) →
      (∃ branches, branches ≠ [] ∧ t = [','].intercalate branches ∧ ∀ b ∈ branches, Branch b) →
      ∃ branches, branches ≠ [] ∧ a ++ t = [','].intercalate branches ∧
        ∀ b ∈ branches, Branch b := by
    rintro a t ha ⟨branches, several, rfl, hb⟩
    refine ⟨onFirst a branches, ?_, (intercalate_onFirst a branches).symm, ?_⟩
    · cases branches <;> simp [onFirst]
    · cases branches with
      | nil => exact (several rfl).elim
      | cons b branches =>
        obtain ⟨hb, hbs⟩ := List.forall_mem_cons.mp hb
        exact List.forall_mem_cons.mpr ⟨ha hb, hbs⟩
  induction h with
  | nil => exact ⟨[[]], by simp, by simp, by simpa using Branch.nil⟩
  | @plain c s escape opening closing _ ih =>
    by_cases comma : c = ','
    · obtain ⟨branches, several, rfl, hb⟩ := ih
      refine ⟨[] :: branches, by simp, ?_, List.forall_mem_cons.mpr ⟨.nil, hb⟩⟩
      cases branches with
      | nil => exact (several rfl).elim
      | cons b branches => simp [comma, List.intercalate_cons_cons]
    · exact extend (a := [c]) (.plain escape opening closing comma) ih
  | @escaped c s _ ih => exact extend (a := ['\\', c]) .escaped ih
  | @group s t hs _ _ ih =>
    have := extend (a := '{' :: s ++ ['}']) (fun hb => by simpa using Branch.group hs hb) ih
    simpa using this

theorem choices_iff_split {inner : List Char} (h : Balanced inner) {branches : List (List Char)} :
    Choices inner branches ↔ split 0 inner = branches ∧ 2 ≤ branches.length := by
  constructor
  · rintro ⟨rfl, several, hb⟩
    exact ⟨split_intercalate (by rintro rfl; simp at several) hb, several⟩
  · rintro ⟨rfl, several⟩
    obtain ⟨branches, ne, rfl, hb⟩ := exists_branches h
    rw [split_intercalate ne hb] at several ⊢
    exact ⟨rfl, several, hb⟩

end Braces

end EditorConfig.Glob
