import EditorConfig.Glob.Pattern
import EditorConfig.Proofs.Glob.Marks
import EditorConfig.Proofs.Glob.Numerals
/-!
# What a pattern matches

`Pattern.Matches` gives the texts of a pattern by recursion on the pattern, without positions or
marks. Carrying marks over a pattern reaches exactly what its texts leave, so that accepting a text
means matching it.
-/
namespace EditorConfig.Glob

namespace Atom

/-- The texts of an atom. -/
def Matches : Atom → List Char → Prop
  | char c => One (· == c)
  | anyChar => One inSegment
  | segment => Run inSegment
  | anything => Run fun _ => true
  | directories => Directories
  | oneOf set => One set.contains
  | numeral range => fun u => range.spells u = true

@[simp] theorem text_advance (a : Atom) (m : Marks) : (a.advance m).text = m.text := by
  cases a with
  | char c => exact Marks.text_step _ m
  | anyChar => exact Marks.text_step _ m
  | segment => exact Marks.text_spread _ m
  | anything => exact Marks.text_spread _ m
  | directories => exact Marks.text_descend m
  | oneOf set => exact Marks.text_step _ m
  | numeral range => exact Marks.text_words _ _ m

theorem mem_pending_advance (a : Atom) {m : Marks} {t : List Char} :
    t ∈ (a.advance m).pending ↔ m.Reaches a.Matches t := by
  cases a with
  | char c => exact Marks.mem_pending_step
  | anyChar => exact Marks.mem_pending_step
  | segment => exact Marks.mem_pending_spread
  | anything => exact Marks.mem_pending_spread
  | directories => exact Marks.mem_pending_descend
  | oneOf set => exact Marks.mem_pending_step
  | numeral range => exact Marks.mem_pending_words fun _ _ h _ => Numerals.viable_of_spells h

end Atom

namespace Pattern

/-- The texts of a pattern. -/
def Matches : Pattern → List Char → Prop
  | nil => fun s => s = []
  | atom a rest => Then a.Matches rest.Matches
  | group body rest => Then body.Matches rest.Matches
  | either left right => fun s => left.Matches s ∨ right.Matches s

@[simp] theorem text_advance (e : Pattern) (m : Marks) : (e.advance m).text = m.text := by
  induction e generalizing m with
  | nil => rfl
  | atom a rest ih => simp [advance, ih]
  | group body rest ihb ih => simp [advance, ihb, ih]
  | either left right ihl _ => simp [advance, Marks.text_union, ihl]

theorem mem_pending_advance (e : Pattern) {m : Marks} {t : List Char} :
    t ∈ (e.advance m).pending ↔ m.Reaches e.Matches t := by
  induction e generalizing m t with
  | nil =>
    constructor
    · intro h
      exact ⟨t, h, [], rfl, rfl⟩
    · rintro ⟨s, hs, u, rfl, rfl⟩
      exact hs
  | atom a rest ih => exact ih.trans (Marks.reaches_comp fun _ => a.mem_pending_advance)
  | group body rest ihb ih => exact ih.trans (Marks.reaches_comp fun _ => ihb)
  | either left right ihl ihr =>
    have both := Marks.mem_pending_union (t := t)
      ((left.text_advance m).trans (right.text_advance m).symm)
    rw [advance, both, ihl, ihr]
    constructor
    · rintro (⟨s, hs, u, hu, h⟩ | ⟨s, hs, u, hu, h⟩)
      · exact ⟨s, hs, u, Or.inl hu, h⟩
      · exact ⟨s, hs, u, Or.inr hu, h⟩
    · rintro ⟨s, hs, u, hu | hu, h⟩
      · exact Or.inl ⟨s, hs, u, hu, h⟩
      · exact Or.inr ⟨s, hs, u, hu, h⟩

theorem accepts_iff (e : Pattern) (s : List Char) : e.accepts s = true ↔ e.Matches s := by
  rw [accepts, Marks.endMarked_iff, mem_pending_advance]
  constructor
  · rintro ⟨t, ht, u, hu, h⟩
    rw [Marks.pending_atStart, List.mem_singleton] at ht
    rw [List.append_nil] at h
    exact ht ▸ h ▸ hu
  · intro h
    exact ⟨s, by simp, s, h, List.append_nil s⟩

end Pattern

end EditorConfig.Glob
