import EditorConfig.Proofs.FileSystem
/-!
# The nearest file

Looking for a file outwards goes through a path and what is left of it when components are dropped.
The file in the first of these directories that has one is found, unless a directory before that is
marked as the root of a repository.
-/
namespace EditorConfig

namespace Settings

/-- Something in a directory goes by the name that marks the root of a repository. -/
def Marked (fs : FileSystem) (dir : Path) : Prop := ∃ node, fs.Holds dir repositoryMark node

/-- A search goes on from a directory: it does not hold the file and, if marks count, is not
marked. -/
structure PassedBy (fs : FileSystem) (name : String) (marks : Bool) (dir : Path) : Prop where
  absent : fs.isFile (dir.join name) = false
  unmarked : marks = true → ¬ Marked fs dir

variable {fs : FileSystem} {dir : Path} {name : String} {marks : Bool}

theorem present_mark : fs.present (dir.join repositoryMark) = true ↔ Marked fs dir :=
  FileSystem.present_join ⟨by decide, by decide, by decide, by decide⟩ (by decide)

/-- A directory holds the file, or ends the search, or the search goes on. -/
theorem findIn_cons (dirs : List Path) (found : Path) :
    findIn fs name marks (dir :: dirs) = some found ↔
      (found = dir.join name ∧ fs.isFile found = true) ∨
        (PassedBy fs name marks dir ∧ findIn fs name marks dirs = some found) := by
  rw [findIn]
  by_cases file : fs.isFile (dir.join name) = true
  · have stays : ¬ PassedBy fs name marks dir := fun h => by simp [h.absent] at file
    rw [if_pos file]
    simp only [stays, false_and, or_false, Option.some_inj]
    exact ⟨fun h => ⟨h.symm, h ▸ file⟩, fun h => h.1.symm⟩
  · have other : ¬ (found = dir.join name ∧ fs.isFile found = true) := fun h => file (h.1 ▸ h.2)
    have absent : fs.isFile (dir.join name) = false := Bool.eq_false_iff.mpr file
    rw [if_neg file, or_iff_right other]
    split
    · next ends =>
      rw [Bool.and_eq_true, present_mark] at ends
      exact iff_of_false nofun fun h => h.1.unmarked ends.1 ends.2
    · next further =>
      rw [Bool.and_eq_true, present_mark, not_and] at further
      exact (and_iff_right ⟨absent, further⟩).symm

/-- By induction on the directories, of which the search passes by those in front. -/
theorem findIn_eq_some_iff (dirs : List Path) (found : Path) :
    findIn fs name marks dirs = some found ↔ ∃ nearer dir farther, dirs = nearer ++ dir :: farther ∧
      found = dir.join name ∧ fs.isFile found = true ∧ ∀ d ∈ nearer, PassedBy fs name marks d := by
  induction dirs with
  | nil => simp [findIn]
  | cons dir dirs ih =>
    rw [findIn_cons, ih]
    constructor
    · rintro (⟨same, file⟩ | ⟨passed, nearer, d, farther, rfl, same, file, others⟩)
      · exact ⟨[], dir, dirs, rfl, same, file, nofun⟩
      · have all := List.forall_mem_cons.mpr ⟨passed, others⟩
        exact ⟨dir :: nearer, d, farther, rfl, same, file, all⟩
    · rintro ⟨nearer, d, farther, split, same, file, passed⟩
      cases nearer with
      | nil =>
        obtain ⟨rfl, rfl⟩ := List.cons.inj split
        exact .inl ⟨same, file⟩
      | cons first nearer =>
        obtain ⟨rfl, rfl⟩ := List.cons.inj split
        rw [List.forall_mem_cons] at passed
        exact .inr ⟨passed.1, nearer, d, farther, rfl, same, file, passed.2⟩

/-- Dropping components comes to an end. The search finds the file in the first directory on the way
that has one, where only directories before that end the search by being marked, and otherwise
nothing. -/
theorem findUpward_nearest (fs : FileSystem) (start : Path) (name : String) (marks : Bool) :
    ∃ dirs, (∀ dirs', Path.Shortens start dirs' ↔ dirs' = dirs) ∧
      ∀ found, findUpward fs start name marks = some found ↔
        ∃ nearer dir farther, dirs = nearer ++ dir :: farther ∧ found = dir.join name ∧
          fs.isFile found = true ∧ ∀ d ∈ nearer, PassedBy fs name marks d := by
  have climbed := start.shortens_climb
  refine ⟨start.climb, fun dirs => ⟨climbed.unique, fun same => same ▸ climbed⟩, ?_⟩
  exact findIn_eq_some_iff start.climb

end Settings

end EditorConfig
