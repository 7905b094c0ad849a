import EditorConfig.Glob.Reader
/-!
# Globs

A glob is the pattern of a section header, ready to be matched against paths relative to the
directory of the file that holds it. A pattern without a separator is matched against the last
segment of a path, any other against the whole path, and one leading separator only says that the
pattern is of the second kind. Nothing matches an empty path or an empty last segment.

Three bounds keep patterns small: on the values that ranges stand for, on nesting, and on the size
of the program that a pattern is compiled to. The last is measured by the `Engine`.
-/
namespace EditorConfig

/-- A pattern text and what it was read as. -/
structure Glob where
  text : String
  pattern : Glob.Pattern
deriving DecidableEq, Repr

namespace Glob

/-- Values that the ranges of numerals of one pattern may stand for, if nothing else is said. -/
def defaultLimit : Nat := 1024

/-- Nesting levels that a pattern may have. -/
def maxDepth : Nat := 250

/-- Why a pattern text is no glob. -/
inductive CompileError where
  /-- A bracket expression is not closed. -/
  | unclosedClass (text : String)
  /-- The ranges of numerals stand for more than `limit` values. -/
  | tooManyAlternatives (text : String) (limit : Nat)
  /-- A range of a bracket expression goes downwards, the pattern is nested too deeply, or the
  program for it is too large. -/
  | malformed (text : String)
  /-- The values of a range cannot be written out. Nobody is told: the program ends here. -/
  | noRoom (text : String)
deriving DecidableEq, Repr

/-- The wording of an error. What the engine itself says of a malformed pattern follows behind a
colon; it is left out here. -/
def CompileError.message : CompileError → String
  | .unclosedClass text => "unclosed character class in pattern `" ++ text ++ "`"
  | .tooManyAlternatives text limit =>
    "pattern `" ++ text ++ "` expands to more than " ++ toString limit ++ " alternatives"
  | .malformed text => "pattern `" ++ text ++ "` could not be compiled"
  | .noRoom _ => "capacity overflow"

/-- Whether the program ends with the error instead of passing the pattern over. -/
def CompileError.isFatal : CompileError → Bool
  | .noRoom _ => true
  | _ => false

/-- The part of a pattern text that is matched: all but one leading separator. -/
def body : List Char → List Char
  | '/' :: s => s
  | s => s

/-- Whether a pattern is matched against the last segment of a path only. -/
def isBasenameOnly (text : String) : Bool := !text.toList.contains '/'

/-- The text after the last separator. -/
def basename (s : List Char) : List Char :=
  (s.reverse.takeWhile (· != '/')).reverse

/-- Reads a pattern text whose ranges of numerals stand for at most `limit` values. Errors met
while reading win over those found in the pattern as a whole: in its bracket expressions, its
nesting, and the size of its program. -/
def compile [Engine] (text : String) (limit : Nat) : Except CompileError Glob :=
  match Reader.read limit (body text.toList) with
  | .error .unclosedClass => .error (.unclosedClass text)
  | .error .tooManyAlternatives => .error (.tooManyAlternatives text limit)
  | .error .noRoom => .error (.noRoom text)
  | .ok pattern =>
    if pattern.wellOrdered ∧ pattern.depth + 2 ≤ maxDepth ∧ Engine.size pattern ≤ maxSize then
      .ok ⟨text, pattern⟩
    else .error (.malformed text)

/-- What is matched of a path: its last segment or the whole. -/
def candidate (g : Glob) (path : String) : List Char :=
  if isBasenameOnly g.text then basename path.toList else path.toList

/-- Whether the glob matches a path relative to its directory, written with separators. -/
def isMatch (g : Glob) (path : String) : Bool :=
  !(g.candidate path).isEmpty && g.pattern.accepts (g.candidate path)

/-- Whether a pattern text under the default limit matches a path; one that is no glob matches
nothing. -/
def matchesPath [Engine] (text path : String) : Bool :=
  match compile text defaultLimit with
  | .ok g => g.isMatch path
  | .error _ => false

end Glob

end EditorConfig
