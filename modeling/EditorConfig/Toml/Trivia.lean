/-!
# TOML between the values

Blanks, line ends and comments. A line ends in a line feed, or in a carriage return and a line feed;
a carriage return alone is an error, and so is a control character in a comment.
-/
namespace EditorConfig.Toml

/-- A reader of a part of a document: what it read and what follows, or nothing on an error. -/
abbrev Scan (α : Type) := List Char → Option (α × List Char)

/-- Blanks inside a line. -/
def isSpace (c : Char) : Bool := c == ' ' || c == '\t'

/-- Characters that may stand in a comment. -/
def isCommentChar (c : Char) : Bool := c == '\t' || (' ' ≤ c && c ≤ '~') || 128 ≤ c.toNat

/-- Skips blanks inside a line. -/
def skipSpace (s : List Char) : List Char := s.dropWhile isSpace

/-- Skips one line end. -/
def newline? : List Char → Option (List Char)
  | '\n' :: s => some s
  | '\r' :: '\n' :: s => some s
  | _ => none

/-- Skips a comment, if there is one. -/
def skipComment : List Char → List Char
  | '#' :: s => s.dropWhile isCommentChar
  | s => s

/-- Skips the rest of a line that holds nothing more, and its end or the end of the document. -/
def endLine? (s : List Char) : Option (List Char) :=
  match skipComment (skipSpace s) with
  | [] => some []
  | s => newline? s

/-- Skips blanks, comments and line ends; every round skips at least one line end. -/
def skipLines? : Nat → List Char → Option (List Char)
  | 0, _ => none
  | rounds + 1, s =>
    match skipSpace s with
    | '#' :: s => (newline? (s.dropWhile isCommentChar)).bind (skipLines? rounds)
    | '\n' :: s => skipLines? rounds s
    | '\r' :: s => (newline? ('\r' :: s)).bind (skipLines? rounds)
    | s => some s

/-- Skips blanks, comments and line ends between the parts of an array. -/
def skipTrivia? (s : List Char) : Option (List Char) := skipLines? (s.length + 1) s

end EditorConfig.Toml
