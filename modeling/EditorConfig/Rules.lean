import EditorConfig.Properties
import EditorConfig.Text.Lowercase
/-!
# Typed rules

Seven keys of a resolved configuration have a meaning of their own. `Rules` holds what their values
say; a key that is not declared, or whose value is not understood, gives no rule. `Rules.entries`
writes the rules as they are written in a configuration file, `Rules.describe` as a table with a
line for every key.
-/
namespace EditorConfig

/-- How the characters of a file are encoded. -/
inductive Charset where
  | utf8
  | utf8Bom
  | utf16le
  | utf16be
  | latin1
deriving DecidableEq, Repr

namespace Charset

/-- The value that declares the charset. -/
def value : Charset → String
  | utf8 => "utf-8"
  | utf8Bom => "utf-8-bom"
  | utf16le => "utf-16le"
  | utf16be => "utf-16be"
  | latin1 => "latin1"

/-- The name of the encoding. -/
def name : Charset → String
  | utf8 | utf8Bom => "UTF-8"
  | utf16le => "UTF-16LE"
  | utf16be => "UTF-16BE"
  | latin1 => "ISO-8859-1"

/-- The byte order mark that a file begins with. -/
def mark : Charset → List UInt8
  | utf8Bom => [0xEF, 0xBB, 0xBF]
  | utf16le => [0xFF, 0xFE]
  | utf16be => [0xFE, 0xFF]
  | utf8 | latin1 => []

end Charset

/-- What ends a line. -/
inductive EndOfLine where
  | lf
  | crlf
  | cr
deriving DecidableEq, Repr

namespace EndOfLine

/-- The value that declares the line end. -/
def value : EndOfLine → String
  | lf => "lf"
  | crlf => "crlf"
  | cr => "cr"

/-- The name of the line end. -/
def name : EndOfLine → String
  | lf => "LF"
  | crlf => "CRLF"
  | cr => "CR"

/-- The line end itself. -/
def terminator : EndOfLine → String
  | lf => "\n"
  | crlf => "\r\n"
  | cr => "\r"

end EndOfLine

/-- What a line is indented with. -/
inductive IndentStyle where
  | tab
  | space
deriving DecidableEq, Repr

/-- The value that declares the style. -/
def IndentStyle.value : IndentStyle → String
  | tab => "tab"
  | space => "space"

/-- How far a line is indented for each level. -/
inductive IndentSize where
  | columns (n : UInt32)
  /-- By one tab, as wide as the tab width says. -/
  | tab
deriving DecidableEq, Repr

/-- The value that declares the size. -/
def IndentSize.value : IndentSize → String
  | columns n => toString n.toNat
  | tab => "tab"

/-- The choice whose value differs from `text` at most in the case of ASCII letters. -/
def choose? {α : Type} (value : α → String) (choices : List α) (text : String) : Option α :=
  choices.find? fun a => Text.equalIgnoringCase text (value a)

/-- The value that declares a switch. -/
def switchValue (on : Bool) : String := if on then "true" else "false"

/-- A positive whole number below 2^32 in decimal digits, with a plus sign or without. -/
def positive? (text : String) : Option UInt32 :=
  let digits := match text.toList with
    | '+' :: ds => ds
    | ds => ds
  if digits.isEmpty || !digits.all Char.isDigit then none
  else
    let n := Nat.ofDigitChars 10 digits 0
    if 0 < n ∧ n < UInt32.size then some (UInt32.ofNat n) else none

/-- What the value of the indent size says. -/
def IndentSize.ofValue? (text : String) : Option IndentSize :=
  if Text.equalIgnoringCase text "tab" then some tab else (positive? text).map columns

/-- The rules for one file. -/
structure Rules where
  charset : Option Charset
  endOfLine : Option EndOfLine
  indentStyle : Option IndentStyle
  indentSize : Option IndentSize
  tabWidth : Option UInt32
  insertFinalNewline : Option Bool
  trimTrailingWhitespace : Option Bool
deriving DecidableEq, Repr

namespace Rules

/-- No rule is declared. -/
def unset : Rules := ⟨none, none, none, none, none, none, none⟩

/-- Whether no rule is declared. -/
def isUnset (r : Rules) : Bool := r == unset

/-- A tab is as wide as its own rule says and else, if a level has a number of columns, as wide as
a level. -/
def tabWidthFor (declared : Option UInt32) : Option IndentSize → Option UInt32
  | some (.columns n) => declared.or (some n)
  | _ => declared

/-- The rules that a resolved configuration declares. -/
def ofProperties (p : Properties) : Rules :=
  let indentSize := (p.get? "indent_size").bind IndentSize.ofValue?
  { charset := (p.get? "charset").bind
      (choose? Charset.value [.utf8, .utf8Bom, .utf16le, .utf16be, .latin1])
    endOfLine := (p.get? "end_of_line").bind (choose? EndOfLine.value [.lf, .crlf, .cr])
    indentStyle := (p.get? "indent_style").bind (choose? IndentStyle.value [.tab, .space])
    indentSize
    tabWidth := tabWidthFor ((p.get? "tab_width").bind positive?) indentSize
    insertFinalNewline := (p.get? "insert_final_newline").bind (choose? switchValue [true, false])
    trimTrailingWhitespace :=
      (p.get? "trim_trailing_whitespace").bind (choose? switchValue [true, false]) }

/-- Columns for each level, the width of a tab if a level is a tab. -/
def indentWidth (r : Rules) : Option UInt32 :=
  match r.indentSize with
  | some (.columns n) => some n
  | some .tab => r.tabWidth
  | none => none

/-- An entry for a rule that is declared. -/
def entry {α : Type} (key : String) (write : α → String) (rule : Option α) :
    List (String × String) :=
  rule.toList.map fun a => (key, write a)

/-- The rules that are declared, as they are written in a configuration file. -/
def entries (r : Rules) : List (String × String) :=
  entry "charset" Charset.value r.charset ++
  entry "end_of_line" EndOfLine.value r.endOfLine ++
  entry "indent_style" IndentStyle.value r.indentStyle ++
  entry "indent_size" IndentSize.value r.indentSize ++
  entry "tab_width" (fun n => toString n.toNat) r.tabWidth ++
  entry "insert_final_newline" switchValue r.insertFinalNewline ++
  entry "trim_trailing_whitespace" switchValue r.trimTrailingWhitespace

/-- A line of the table of all rules. -/
def tableLine {α : Type} (key : String) (write : α → String) (rule : Option α) : String :=
  key ++ ": " ++ (rule.map write).getD "unset"

/-- The lines of the table of all rules. -/
def tableLines (r : Rules) : List String :=
  [ tableLine "charset" Charset.name r.charset,
    tableLine "end_of_line" EndOfLine.name r.endOfLine,
    tableLine "indent_size" IndentSize.value r.indentSize,
    tableLine "indent_style" IndentStyle.value r.indentStyle,
    tableLine "insert_final_newline" switchValue r.insertFinalNewline,
    tableLine "tab_width" (fun (n : UInt32) => toString n.toNat) r.tabWidth,
    tableLine "trim_trailing_whitespace" switchValue r.trimTrailingWhitespace ]

/-- The table of all rules, one line for each key. -/
def describe (r : Rules) : String := "\n".intercalate r.tableLines

end Rules

end EditorConfig
