/-!
# Texts with marked positions

A matcher that never backtracks keeps the positions of a text that a pattern can have
reached so far. `Marks` is a text with one such mark in front of every character and one at
its end. Each way of moving on (over one character, over a run, over whole directories, over
a word) reads the text once. `Marks.pending` lists what is still to be matched from each marked
position, and the functions below are described by what they do to it.
-/
namespace EditorConfig.Glob

/-- A text in which every position, the end included, is marked or not. -/
inductive Marks where
  | last (here : Bool)
  | cons (here : Bool) (c : Char) (rest : Marks)

namespace Marks

/-- The text itself. -/
def text : Marks → List Char
  | last _ => []
  | cons _ c rest => c :: rest.text

/-- What follows each marked position, the longest first. -/
def pending : Marks → List (List Char)
  | last here => if here then [[]] else []
  | cons here c rest => if here then (c :: rest.text) :: rest.pending else rest.pending

/-- No position is marked. -/
def blank : List Char → Marks
  | [] => last false
  | c :: s => cons false c (blank s)

/-- Only the beginning is marked. -/
def atStart : List Char → Marks
  | [] => last true
  | c :: s => cons true c (blank s)

/-- Whether the end is marked. -/
def endMarked : Marks → Bool
  | last here => here
  | cons _ _ rest => rest.endMarked

/-- The marks of both, over the same text. -/
def union : Marks → Marks → Marks
  | last a, last b => last (a || b)
  | cons a c s, cons b _ t => cons (a || b) c (union s t)
  | m, _ => m

/-- Moves every mark over one character that satisfies `p`; `carry` marks the first position. -/
def stepFrom (p : Char → Bool) (carry : Bool) : Marks → Marks
  | last _ => last carry
  | cons here c rest => cons carry c (stepFrom p (here && p c) rest)

/-- Moves every mark over one character that satisfies `p`. -/
def step (p : Char → Bool) : Marks → Marks := stepFrom p false

/-- Spreads every mark, and one that arrives from the left if `carry`, over characters that
satisfy `p`. -/
def spreadFrom (p : Char → Bool) (carry : Bool) : Marks → Marks
  | last here => last (carry || here)
  | cons here c rest => cons (carry || here) c (spreadFrom p ((carry || here) && p c) rest)

/-- Moves every mark over any number of characters that satisfy `p`. -/
def spread (p : Char → Bool) : Marks → Marks := spreadFrom p false

/-- Keeps every mark and adds one after each separator to the right of a mark. `seen` says that a
mark lies to the left, `after` that one lies to the left of a separator just read. -/
def descendFrom (seen after : Bool) : Marks → Marks
  | last here => last (here || after)
  | cons here c rest =>
    cons (here || after) c (descendFrom (seen || here) ((seen || here) && c == '/') rest)

/-- Moves every mark over nothing or over a text that ends in a separator. -/
def descend : Marks → Marks := descendFrom false false

/-- Moves every mark, and the words begun in `live` (each written backwards), over a word that is
`accepted`; a word is read on as long as it is `viable`. -/
def wordsFrom (viable accepted : List Char → Bool) (live : List (List Char)) : Marks → Marks
  | last here => last ((if here then [] :: live else live).any fun w => accepted w.reverse)
  | cons here c rest =>
    let begun := if here then [] :: live else live
    cons (begun.any fun w => accepted w.reverse) c
      (wordsFrom viable accepted
        ((begun.map (c :: ·)).filter fun w => viable w.reverse) rest)

/-- Moves every mark over a word that is `accepted`. -/
def words (viable accepted : List Char → Bool) : Marks → Marks := wordsFrom viable accepted []

end Marks

end EditorConfig.Glob
