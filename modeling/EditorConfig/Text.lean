/-!
# Texts

How a text is cut into lines, how one of its lines is cut at a character, and what is taken off its
ends. Blank characters are those with the Unicode property White_Space. They are taken off both ends
of lines, keys and values. Zero-width characters and the separators U+001C to U+001F are not blank.
-/
namespace EditorConfig.Text

/-- The lines of a text: the pieces between its line feeds. A text that ends in a line feed has an
empty last piece. -/
def lines (s : List Char) : List (List Char) := s.splitOn '\n'

/-- The text in front of the first `sep` and the text behind it. -/
def cut? (sep : Char) : List Char → Option (List Char × List Char)
  | [] => none
  | c :: s =>
    if c = sep then some ([], s) else (cut? sep s).map fun (before, after) => (c :: before, after)

/-- Drops a byte order mark from the beginning. -/
def dropMark : List Char → List Char
  | '\uFEFF' :: s => s
  | s => s

/-- Whether a character has the property White_Space. -/
def isBlank (c : Char) : Bool :=
  ('\t' ≤ c && c ≤ '\r') || c == ' ' || c == '\x85' || c == '\xA0' || c == '\u1680' ||
  ('\u2000' ≤ c && c ≤ '\u200A') || c == '\u2028' || c == '\u2029' || c == '\u202F' ||
  c == '\u205F' || c == '\u3000'

/-- Takes the blank characters off the end. -/
def trimEnd : List Char → List Char
  | [] => []
  | c :: s =>
    match trimEnd s with
    | [] => if isBlank c then [] else [c]
    | t => c :: t

/-- Takes the blank characters off both ends. -/
def trim (s : List Char) : List Char := trimEnd (s.dropWhile isBlank)

end EditorConfig.Text
