/-!
# Paths

A `Path` is a path as it is written, with all its separators and dots; it is shown and joined
without being changed. A `Location` is where a path leads when it is folded: the names from the
inside outwards, so that the tail of a location is the directory that holds it. Folding drops `.`,
lets `..` take back the name before it and never climbs above the root.

Names are texts. A name of bytes that are no UTF-8 has no `Path` and no `Location`; shown as text, or
matched by a pattern, it would lose the bytes that make it differ.
-/
namespace EditorConfig

/-- A path as it is written. -/
structure Path where
  text : String
deriving DecidableEq, Repr

/-- A place in a file system: the names that lead to it, the innermost first. -/
abbrev Location := List String

namespace Path

/-- What a path is made of. -/
inductive Component where
  | root
  | current
  | parent
  | name (s : String)
deriving DecidableEq, Repr

/-- Where a path begins. -/
inductive Anchor where
  /-- At the root. -/
  | root
  /-- With a dot. -/
  | current
  /-- With neither. -/
  | nothing
deriving DecidableEq, Repr

/-- Whether a path is written from the root. -/
def isAbsolute (p : Path) : Bool := p.text.toList.head? == some '/'

/-- Where a path begins, and the pieces behind that, between separators. -/
def anatomy (p : Path) : Anchor × List (List Char) :=
  match p.text.toList with
  | '/' :: s => (.root, s.splitOn '/')
  | s =>
    match s.splitOn '/' with
    | ['.'] :: pieces => (.current, pieces)
    | pieces => (.nothing, pieces)

/-- What a piece behind the beginning stands for; an empty piece and a dot stand for nothing. -/
def component? : List Char → Option Component
  | [] => none
  | ['.'] => none
  | ['.', '.'] => some .parent
  | s => some (.name (String.ofList s))

/-- The component that a beginning stands for. -/
def Anchor.components : Anchor → List Component
  | root => [.root]
  | current => [.current]
  | nothing => []

/-- The components of a path. -/
def components (p : Path) : List Component :=
  p.anatomy.1.components ++ p.anatomy.2.filterMap component?

/-- The text of a path with a given beginning and given pieces. -/
def assemble : Anchor → List (List Char) → Path
  | .root, pieces => ⟨String.ofList ('/' :: ['/'].intercalate pieces)⟩
  | .current, pieces => ⟨String.ofList (['/'].intercalate (['.'] :: pieces))⟩
  | .nothing, pieces => ⟨String.ofList (['/'].intercalate pieces)⟩

/-- Drops the pieces at the end that stand for nothing. -/
def dropTrivialEnd (pieces : List (List Char)) : List (List Char) :=
  (pieces.reverse.dropWhile fun s => (component? s).isNone).reverse

/-- The path without its last component; the root and the empty path have none to drop. -/
def parent? (p : Path) : Option Path :=
  match p.anatomy with
  | (anchor, pieces) =>
    match dropTrivialEnd pieces with
    | [] => if anchor = .current then some ⟨""⟩ else none
    | kept => some (assemble anchor (dropTrivialEnd kept.dropLast))

/-- The directory that a path is in, as written; the empty path if there is none. -/
def directory (p : Path) : Path := p.parent?.getD ⟨""⟩

/-- The path of `name` seen from `p`; an absolute name stands for itself. -/
def join (p : Path) (name : String) : Path :=
  if isAbsolute ⟨name⟩ then ⟨name⟩
  else if p.text.toList.getLast?.all (· == '/') then ⟨p.text ++ name⟩
  else ⟨p.text ++ "/" ++ name⟩

end Path

namespace Location

/-- Goes one component on. -/
def follow (here : Location) : Path.Component → Location
  | .root => []
  | .current => here
  | .parent => here.tail
  | .name s => s :: here

/-- Where a path leads from `here`. -/
def fold (here : Location) (p : Path) : Location := p.components.foldl follow here

/-- The components that lead to a location from the root. -/
def components (l : Location) : List Path.Component := .root :: l.reverse.map .name

/-- A location written as a path from the root. -/
def path (l : Location) : Path := Path.assemble .root (l.reverse.map String.toList)

/-- The directories that hold a location, the nearest first. -/
def ancestors : Location → List Location
  | [] => []
  | _ :: outer => outer :: ancestors outer

/-- The name of a component. -/
def name? : Path.Component → Option String
  | .name s => some s
  | _ => none

/-- Names joined by separators. -/
def joined (names : List String) : String :=
  (Path.assemble .nothing (names.map String.toList)).text

/-- A location as seen from a directory above it, names joined by separators. As names are texts,
nothing is lost in it. -/
def relativeTo? (l : Location) (dir : Path) : Option String :=
  if dir.components.isPrefixOf l.components then
    ((l.components.drop dir.components.length).mapM name?).map joined
  else none

end Location

end EditorConfig
