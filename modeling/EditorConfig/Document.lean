import EditorConfig.Properties
import EditorConfig.Text
import EditorConfig.Text.Lowercase
/-!
# Documents

The text of a configuration file is a preamble and a list of sections, each a pattern with
properties. Reading is tolerant: a line that is no blank line, comment, header or property within
the limits is recorded as skipped, and a rejected header takes the properties below it along. Only a
text that holds a NUL character is refused.

`Line.ofText` tells what one line is, whatever stands around it. `Document.ofLines` goes through the
lines and keeps, beside what was read, only the part of the document that the next line belongs to.
-/
namespace EditorConfig

/-- A pattern and the properties declared under it. -/
structure Section where
  /-- The pattern, exactly as written between the brackets. -/
  pattern : String
  properties : Properties
deriving DecidableEq, Repr

/-- Why a line is skipped. -/
inductive SkipReason where
  | missingEquals
  | emptyKey
  | unterminatedSection
  | sectionTooLong
  | keyTooLong
  | valueTooLong
  /-- A property below a rejected header. -/
  | orphanProperty
deriving DecidableEq, Repr

/-- The name under which a reason is reported. -/
def SkipReason.name : SkipReason → String
  | missingEquals => "MissingEquals"
  | emptyKey => "EmptyKey"
  | unterminatedSection => "UnterminatedSection"
  | sectionTooLong => "SectionTooLong"
  | keyTooLong => "KeyTooLong"
  | valueTooLong => "ValueTooLong"
  | orphanProperty => "OrphanProperty"

/-- A line that was skipped, counted from 1. -/
structure SkippedLine where
  line : Nat
  reason : SkipReason
deriving DecidableEq, Repr

/-- Longest key, in bytes. -/
def maxKeyLength : Nat := 1024

/-- Longest value, in bytes. -/
def maxValueLength : Nat := 4096

/-- Longest section pattern, in bytes. -/
def maxPatternLength : Nat := 4096

/-- What a line says by itself. -/
inductive Line where
  /-- A blank line or a comment. -/
  | nothing
  /-- The header of a section. -/
  | header (pattern : String)
  /-- A line that begins like a header and is none. -/
  | badHeader (reason : SkipReason)
  /-- A property as written, without the blanks around key and value. -/
  | property (key value : String)
  /-- Any other line. -/
  | malformed (reason : SkipReason)
deriving DecidableEq, Repr

namespace Line

/-- The pattern of a header whose opening bracket has been read: all but the bracket at the end. -/
def headerPattern? (s : List Char) : Option (List Char) :=
  if s.getLast? = some ']' then some s.dropLast else none

/-- Reads a line that begins with a bracket, from behind the bracket. -/
def ofHeader (s : List Char) : Line :=
  match headerPattern? s with
  | none => badHeader .unterminatedSection
  | some pattern =>
    let pattern := String.ofList pattern
    if maxPatternLength < pattern.utf8ByteSize then badHeader .sectionTooLong else header pattern

/-- Reads the two sides of the first equals sign of a line. -/
def ofSides (key value : List Char) : Line :=
  let key := String.ofList (Text.trim key)
  let value := String.ofList (Text.trim value)
  if key = "" then malformed .emptyKey
  else if maxKeyLength < key.utf8ByteSize then malformed .keyTooLong
  else if maxValueLength < value.utf8ByteSize then malformed .valueTooLong
  else property key value

/-- Reads a line without blanks around it. -/
def ofTrimmed : List Char → Line
  | [] => nothing
  | '#' :: _ => nothing
  | ';' :: _ => nothing
  | '[' :: s => ofHeader s
  | s =>
    match Text.cut? '=' s with
    | none => malformed .missingEquals
    | some (key, value) => ofSides key value

/-- Reads a line. -/
def ofText (s : List Char) : Line := ofTrimmed (Text.trim s)

end Line

/-- The part of a document that a line belongs to. -/
inductive Scope where
  /-- Above the first header. -/
  | preamble
  /-- Below an accepted header. -/
  | sectionBody
  /-- Below a rejected header. -/
  | discarding
deriving DecidableEq, Repr

/-- What is read from the text of a configuration file. -/
structure Document where
  isRoot : Bool
  sections : List Section
  skipped : List SkippedLine
deriving DecidableEq, Repr

namespace Document

/-- A document being read: the part that the next line belongs to, and what was read so far, the
latest first. -/
structure Reading where
  scope : Scope
  isRoot : Bool
  sections : List Section
  skipped : List SkippedLine
deriving DecidableEq, Repr

/-- Nothing has been read. -/
def Reading.start : Reading := ⟨.preamble, false, [], []⟩

/-- Sets a property of the section read last. -/
def setLast (key value : String) : List Section → List Section
  | [] => []
  | s :: rest => { s with properties := s.properties.insert key value } :: rest

/-- Takes in the line with a given number. In the preamble only the key `root` means something. -/
def Reading.next (r : Reading) (number : Nat) : Line → Reading
  | .nothing => r
  | .header pattern =>
    { r with scope := .sectionBody, sections := ⟨pattern, .empty⟩ :: r.sections }
  | .badHeader reason =>
    { r with scope := .discarding, skipped := ⟨number, reason⟩ :: r.skipped }
  | .malformed reason => { r with skipped := ⟨number, reason⟩ :: r.skipped }
  | .property key value =>
    match r.scope with
    | .preamble =>
      if Text.equalIgnoringCase key "root" then
        { r with isRoot := Text.equalIgnoringCase value "true" }
      else r
    | .sectionBody => { r with sections := setLast (Text.lowercase key) value r.sections }
    | .discarding => { r with skipped := ⟨number, .orphanProperty⟩ :: r.skipped }

/-- Takes in lines, the first of which has a given number. -/
def Reading.nextAll (r : Reading) (number : Nat) : List Line → Reading
  | [] => r
  | line :: rest => (r.next number line).nextAll (number + 1) rest

/-- The document that was read. -/
def Reading.finish (r : Reading) : Document :=
  ⟨r.isRoot, r.sections.reverse, r.skipped.reverse⟩

/-- The document that lines make up. -/
def ofLines (lines : List Line) : Document := (Reading.start.nextAll 1 lines).finish

/-- A text that holds a NUL character, and the line of the first one. -/
structure BinaryContent where
  line : Nat
deriving DecidableEq, Repr

/-- The wording of the error. -/
def BinaryContent.message (e : BinaryContent) : String :=
  "binary content at line " ++ toString e.line

/-- Reads the text of a configuration file. A byte order mark in front of it is dropped. -/
def parse (content : String) : Except BinaryContent Document :=
  match Text.cut? '\x00' content.toList with
  | some (before, _) => .error ⟨before.count '\n' + 1⟩
  | none => .ok (ofLines ((Text.lines (Text.dropMark content.toList)).map Line.ofText))

end Document

end EditorConfig
