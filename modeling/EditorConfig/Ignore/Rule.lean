import EditorConfig.FileSystem
import EditorConfig.Ignore.Syntax
import EditorConfig.Text
/-!
# Ignore rules

A file of ignore rules holds one rule on each line: a pattern, which may be negated, anchored to the
directory of the file, or restricted to directories. The last rule that matches a path decides. A
line with an invalid pattern is no rule; it is reported and the others count all the same.
-/
namespace EditorConfig.Ignore

/-- What rules decide about a path. -/
inductive Verdict where
  | ignore
  | keep
deriving DecidableEq, Repr

/-- One rule of a file. -/
structure Rule where
  pattern : Glob.Pattern
  onlyDirectories : Bool
  verdict : Verdict
deriving DecidableEq, Repr

/-- What is wrong with a line. -/
inductive LineError where
  /-- The pattern, given as written, is invalid. -/
  | pattern (written : String) (cause : SyntaxError)
  /-- The bytes are not UTF-8; the rest of the file is not read. -/
  | encoding
deriving DecidableEq, Repr

/-- The wording of an error. -/
def LineError.message : LineError → String
  | pattern written cause => "error parsing glob '" ++ written ++ "': " ++ cause.message
  | encoding => FsError.notText.message

/-- A line of a file that is no rule, counted from 1. -/
structure RuleError where
  file : Path
  line : Nat
  cause : LineError
deriving DecidableEq, Repr

/-- The wording of an error. -/
def RuleError.message (e : RuleError) : String :=
  e.file.text ++ ": line " ++ toString e.line ++ ": " ++ e.cause.message

namespace Rule

/-- Whether a text begins with another. -/
def startsWith (s start : List Char) : Bool := start.isPrefixOf s

/-- The pattern that is matched for a pattern as written, and whether it stands for directories
only: one slash at the end says so, a pattern without another separator may match at any depth
unless it is anchored, and two stars at the end leave the directory itself out. -/
def complete (anchored : Bool) (s : List Char) : Bool × List Char :=
  let onlyDirectories := s.getLast? == some '/'
  let s := if onlyDirectories then s.dropLast else s
  let s := if onlyDirectories && s.getLast? == some '\\' then s.dropLast else s
  let floating := !anchored && !s.contains '/' && !startsWith s "**/".toList && s != "**".toList
  let s := if floating then "**/".toList ++ s else s
  let s := if "/**".toList.isSuffixOf s then s ++ "/*".toList else s
  (onlyDirectories, s)

/-- A line without the blanks at its end; one escaped blank is kept with what stands before it. -/
def trimLine (s : List Char) : List Char :=
  if "\\ ".toList.isSuffixOf s then s else Text.trimEnd s

/-- The parts of a line: whether it is negated, whether it is anchored, and the pattern as
written. -/
def parts (s : List Char) : Bool × Bool × List Char :=
  let anchor (negated : Bool) : List Char → Bool × Bool × List Char
    | '/' :: s => (negated, true, s)
    | s => (negated, false, s)
  match s with
  | '\\' :: '!' :: s => (false, false, '!' :: s)
  | '\\' :: '#' :: s => (false, false, '#' :: s)
  | '!' :: s => anchor true s
  | s => anchor false s

/-- The rule on a line, if there is one. -/
def ofLine? (s : List Char) : Except (String × SyntaxError) (Option Rule) :=
  let line := trimLine s
  if startsWith s ['#'] || line.isEmpty then .ok none
  else
    let (negated, anchored, written) := parts line
    let (onlyDirectories, pattern) := complete anchored written
    match readPattern pattern with
    | .error cause => .error (String.ofList line, cause)
    | .ok pattern => .ok (some ⟨pattern, onlyDirectories, if negated then .keep else .ignore⟩)

/-- Whether the rule speaks about a path. -/
def appliesTo (r : Rule) (path : List Char) (isDir : Bool) : Bool :=
  (!r.onlyDirectories || isDir) && r.pattern.accepts (bytes path)

/-- What rules decide about a path: what the last one that speaks about it says. -/
def decision (rules : List Rule) (path : List Char) (isDir : Bool) : Option Verdict :=
  (rules.reverse.find? fun r => r.appliesTo path isDir).map Rule.verdict

end Rule

/-- The lines of a file, in bytes; a carriage return in front of a line feed does not belong to the
line. -/
def byteLines (content : ByteArray) : List (List UInt8) :=
  let dropReturn (l : List UInt8) : List UInt8 := if l.getLast? == some 13 then l.dropLast else l
  let pieces := content.toList.splitOn 10
  pieces.dropLast.map dropReturn ++ [pieces.getLastD []]

/-- Reads the lines of a file of rules, the first of which has a given number. Reading ends at a
line that is no text. -/
def readLines (file : Path) (number : Nat) : List (List UInt8) → List Rule × List RuleError
  | [] => ([], [])
  | line :: rest =>
    match String.fromUTF8? ⟨line.toArray⟩ with
    | none => ([], [⟨file, number, .encoding⟩])
    | some text =>
      let (rules, errors) := readLines file (number + 1) rest
      let s := if number = 1 then text.toList.dropWhile (· == '\uFEFF') else text.toList
      match Rule.ofLine? s with
      | .ok none => (rules, errors)
      | .ok (some rule) => (rule :: rules, errors)
      | .error (written, cause) => (rules, ⟨file, number, .pattern written cause⟩ :: errors)

/-- Reads a file of rules. That a file ends in bytes that are no text is told only beside another
error. -/
def readRules (file : Path) (content : ByteArray) : List Rule × List RuleError :=
  match readLines file 1 (byteLines content) with
  | (rules, [⟨_, _, .encoding⟩]) => (rules, [])
  | found => found

end EditorConfig.Ignore
