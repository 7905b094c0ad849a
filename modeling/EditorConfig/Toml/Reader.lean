import EditorConfig.Toml.Text
/-!
# Reading TOML documents

A document is a list of lines: blank ones and comments, headers of tables and of elements of lists
of tables, and keys with values, which go into the table opened last. Values and dotted keys may be
nested up to a fixed depth.
-/
namespace EditorConfig.Toml

/-- Parts that a dotted key, and levels that a value must stay below. -/
def depthLimit : Nat := 80

/-- Whether a character may stand in a key without quotes. -/
def isBareKeyChar (c : Char) : Bool := c.isAlphanum || c == '_' || c == '-'

/-- One part of a key. -/
def simpleKey? (s : List Char) : Option (String × List Char) :=
  match s with
  | '"' :: s => (basic? (s.length + 1) s).map fun (cs, rest) => (String.ofList cs, rest)
  | '\'' :: s => (literal? s).map fun (cs, rest) => (String.ofList cs, rest)
  | s =>
    let bare := s.takeWhile isBareKeyChar
    if bare.isEmpty then none else some (String.ofList bare, s.dropWhile isBareKeyChar)

/-- The parts of a dotted key, each with blanks around it. -/
def keyParts? : Nat → Scan (List String)
  | 0, _ => none
  | parts + 1, s => do
    let (first, s) ← simpleKey? (skipSpace s)
    match skipSpace s with
    | '.' :: s =>
      let (others, rest) ← keyParts? parts s
      return (first :: others, rest)
    | rest => return ([first], rest)

/-- A dotted key: the parts in front of its last part, and that part. -/
def key? (s : List Char) : Option ((List String × String) × List Char) := do
  let (parts, rest) ← keyParts? (depthLimit - 1) s
  let last ← parts.getLast?
  return ((parts.dropLast, last), rest)

/-- The rest of an array. -/
def arrayRest? (value : Scan Item) : Nat → Scan (List Item)
  | 0, _ => none
  | rounds + 1, s => do
    match ← skipTrivia? s with
    | ']' :: rest => return ([], rest)
    | s =>
      let (item, s) ← value s
      match ← skipTrivia? s with
      | ',' :: s =>
        let (items, rest) ← arrayRest? value rounds s
        return (item :: items, rest)
      | ']' :: rest => return ([item], rest)
      | _ => none

/-- The keys and values that are left of a table between braces, at least one. -/
def inlineRest? (value : Scan Item) : Nat → Entries → Scan Entries
  | 0, _, _ => none
  | rounds + 1, entries, s => do
    let ((path, key), s) ← key? s
    let s ← expect? '=' s
    let (item, s) ← value (skipSpace s)
    let entries ← entries.insert? path key item
    match skipSpace s with
    | ',' :: s => inlineRest? value rounds entries s
    | '}' :: rest => return (entries, rest)
    | _ => none

/-- A value that holds no other values. -/
def scalar? (s : List Char) : Option (Item × List Char) :=
  match s with
  | 't' :: 'r' :: 'u' :: 'e' :: rest => some (.boolean true, rest)
  | 'f' :: 'a' :: 'l' :: 's' :: 'e' :: rest => some (.boolean false, rest)
  | '"' :: _ | '\'' :: _ => (string? s).map fun (t, rest) => (.string t, rest)
  | _ => number? s

/-- A value with at most `levels` levels of arrays and tables. -/
def value? : Nat → Scan Item
  | 0, s => scalar? s
  | levels + 1, s =>
    match s with
    | '[' :: s =>
      (arrayRest? (value? levels) (s.length + 1) s).map fun (items, rest) => (.array items, rest)
    | '{' :: s =>
      match skipSpace s with
      | '}' :: rest => some (.table .inline [], rest)
      | s =>
        (inlineRest? (value? levels) (s.length + 1) [] s).map fun (entries, rest) =>
          (.table .inline entries, rest)
    | s => scalar? s

/-- A document being read: what it holds so far, and the keys to the table opened last. -/
structure Reading where
  root : Entries
  path : List String

/-- Reads a header, from behind its first bracket, and opens its table. -/
def header? (r : Reading) (s : List Char) : Option (Reading × List Char) :=
  match s with
  | '[' :: s => do
    let ((path, key), s) ← key? s
    let s ← expect? ']' s
    let s ← expect? ']' s
    let rest ← endLine? s
    let root ← r.root.openElement? path key
    return (⟨root, path ++ [key]⟩, rest)
  | s => do
    let ((path, key), s) ← key? s
    let s ← expect? ']' s
    let rest ← endLine? s
    let root ← r.root.openTable? path key
    return (⟨root, path ++ [key]⟩, rest)

/-- Reads a key with its value into the table opened last. -/
def keyValue? (r : Reading) (s : List Char) : Option (Reading × List Char) := do
  let ((path, key), s) ← key? s
  let s ← expect? '=' s
  let (item, s) ← value? (depthLimit - 1) (skipSpace s)
  let rest ← endLine? s
  let root ← r.root.change false (fun _ here => here.insert? path key item) r.path .header
  return ({ r with root }, rest)

/-- Reads lines up to the end of the document. -/
def lines? : Nat → Reading → List Char → Option Entries
  | 0, _, _ => none
  | rounds + 1, r, s =>
    match skipSpace s with
    | [] => some r.root
    | '#' :: s => (endLine? ('#' :: s)).bind (lines? rounds r)
    | '\n' :: s => lines? rounds r s
    | '\r' :: s => (newline? ('\r' :: s)).bind (lines? rounds r)
    | '[' :: s => (header? r s).bind fun (r, rest) => lines? rounds r rest
    | s => (keyValue? r s).bind fun (r, rest) => lines? rounds r rest

/-- Reads a document. A byte order mark in front of it is skipped. -/
def parse? (text : String) : Option Entries :=
  let s := match text.toList with
    | '\uFEFF' :: s => s
    | s => s
  lines? (s.length + 1) ⟨[], []⟩ s

end EditorConfig.Toml
