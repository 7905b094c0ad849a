/-!
# TOML documents

What a TOML document holds: items under keys, in tables that remember how they came about, since
that decides which later lines may add to them. Of floating-point numbers and dates only the kind is
kept; settings have no use for their values.
-/
namespace EditorConfig.Toml

/-- How a table came about. -/
inductive Origin where
  /-- It was written between braces, and is complete. -/
  | inline
  /-- It has a header of its own. -/
  | header
  /-- It was on the way to the table of a header. -/
  | implied
  /-- It was on the way to a dotted key. -/
  | dotted
deriving DecidableEq, Repr

/-- A value, a table or a list of tables with one header each. -/
inductive Item where
  | string (s : String)
  | integer (n : Int)
  | float
  | boolean (b : Bool)
  | datetime
  | array (items : List Item)
  | table (origin : Origin) (entries : List (String × Item))
  | tables (elements : List (List (String × Item)))

/-- What a table holds, in the order of writing. -/
abbrev Entries := List (String × Item)

namespace Entries

/-- Gives a key that is there another item. -/
def replace (key : String) (item : Item) : Entries → Entries
  | [] => []
  | (k, i) :: rest => if k = key then (k, item) :: rest else (k, i) :: replace key item rest

/-- Gives a key an item: in its place if the key is there, at the end if not. -/
def set (entries : Entries) (key : String) (item : Item) : Entries :=
  if (entries.lookup key).isSome then replace key item entries else entries ++ [(key, item)]

/-- Changes the table that keys lead to, making the tables on the way. On the way to a dotted key,
tables with a header of their own are closed; values and tables between braces always are. A list of
tables stands for its last one. -/
def change (dotted : Bool) (f : Origin → Entries → Option Entries) :
    List String → Origin → Entries → Option Entries
  | [], origin, entries => f origin entries
  | key :: keys, _, entries =>
    match entries.lookup key with
    | none =>
      let origin := if dotted then Origin.dotted else .implied
      (change dotted f keys origin []).map fun sub => entries.set key (.table origin sub)
    | some (.table origin sub) =>
      if origin = .inline ∨ (dotted ∧ origin = .header) then none
      else (change dotted f keys origin sub).map fun sub => entries.set key (.table origin sub)
    | some (.tables elements) =>
      match elements.getLast? with
      | none => none
      | some last =>
        (change dotted f keys .header last).map fun sub =>
          entries.set key (.tables (elements.dropLast ++ [sub]))
    | some _ => none

/-- Adds a value under a dotted key. The key must be new, and the table that it stands in must have
come about by dotted keys if there is a dot at all. -/
def insert? (path : List String) (key : String) (item : Item) (entries : Entries) :
    Option Entries :=
  change true (fun origin here =>
    if (origin == .dotted) == path.isEmpty then none
    else if (here.lookup key).isSome then none
    else some (here ++ [(key, item)])) path .header entries

/-- Opens the table of a header: a new one, or one that was only on the way to another. -/
def openTable? (path : List String) (key : String) (root : Entries) : Option Entries :=
  change false (fun _ here =>
    match here.lookup key with
    | none => some (here ++ [(key, .table .header [])])
    | some (.table .implied sub) => some (here.set key (.table .header sub))
    | some _ => none) path .header root

/-- Opens one more table of a list of tables. -/
def openElement? (path : List String) (key : String) (root : Entries) : Option Entries :=
  change false (fun _ here =>
    match here.lookup key with
    | none => some (here ++ [(key, .tables [[]])])
    | some (.tables elements) => some (here.set key (.tables (elements ++ [[]])))
    | some _ => none) path .header root

end Entries

end EditorConfig.Toml
