import EditorConfig.Ignore.Layer
/-!
# Walks

The files that some paths stand for. A path to a file stands for that file, hidden or not. A path to
a directory stands for the files in it and below, depth first and in the order of names, without
what is hidden or ignored. A path that leads nowhere is an error in its place.
-/
namespace EditorConfig

/-- What goes wrong in a walk. -/
inductive WalkError where
  | unreachable (path : Path) (cause : FsError)
  /-- Rules of a directory that holds the one to walk are invalid. -/
  | invalidRules (errors : List Ignore.RuleError)
deriving DecidableEq, Repr

/-- The wording of an error. -/
def WalkError.message : WalkError → String
  | unreachable path cause =>
    path.text ++ ": IO error for operation on " ++ path.text ++ ": " ++ cause.message
  | invalidRules errors => "\n".intercalate (errors.map Ignore.RuleError.message)

namespace Walk

open Ignore (Layer Verdict)

/-- Whether a path ends in a hidden name, one that begins with a dot. -/
def isHidden (p : Path) : Bool :=
  (p.text.toList.reverse.takeWhile (· != '/')).getLast? == some '.'

/-- A walk below a directory: the layers of the directories around it, the nearest first, and where
it is. -/
structure Frame where
  /-- The directory that the walk began with. -/
  top : Path
  /-- Its location. -/
  location : Location
  outer : List Layer

/-- How the layers around the beginning of the walk call a path. -/
def Frame.absolute (f : Frame) (s : List Char) : List Char :=
  let below :=
    if Layer.isDot f.top then s
    else Layer.dropSlash
      ((Layer.dropStart? (Layer.dropDot f.top.text.toList) s).getD s)
  (f.location.path.join (String.ofList below)).text.toList

/-- Whether a path found in a walk is left out: rules come first, and what they do not decide is
left out if it is hidden. `inner` are the layers from the directory of the path to the beginning. -/
def Frame.skips (f : Frame) (inner : List Layer) (p : Path) (isDir : Bool) : Bool :=
  let s := Layer.dropDot p.text.toList
  let absolute := f.absolute s
  match Layer.judge (inner.map (·, s) ++ f.outer.map (·, absolute)) isDir with
  | some .ignore => true
  | some .keep => false
  | none => isHidden p

/-- The files of named entries, in the order of names. -/
def inOrder (found : List (String × List Path)) : List Path :=
  (found.mergeSort fun a b => a.1 ≤ b.1).flatMap Prod.snd

/-- The files that the entries of a directory stand for, entry by entry. -/
def below (f : Frame) (fs : FileSystem) (inner : List Layer) (dir : Path) :
    Listing → List (String × List Path)
  | .nil => []
  | .file name _ rest =>
    let p := dir.join name
    (name, if f.skips inner p false then [] else [p]) :: below f fs inner dir rest
  | .dir name sub rest =>
    let p := dir.join name
    let files :=
      if f.skips inner p true then []
      else inOrder (below f fs ((Layer.ofDirectory fs p sub).1 :: inner) p sub)
    (name, files) :: below f fs inner dir rest

/-- The layers of the directories around a location, the nearest first, and what is wrong with them,
the outermost first. -/
def around (fs : FileSystem) (l : Location) : List Layer × List Ignore.RuleError :=
  l.ancestors.foldr (fun dir (layers, errors) =>
    match fs.tree.node? dir with
    | some (.dir entries) =>
      let (layer, more) := Layer.ofDirectory fs dir.path entries
      (layer :: layers, errors ++ more)
    | _ => (layers, errors)) ([], [])

/-- Whether a path asks for standard input, which holds no files. -/
def isStandardInput (p : Path) : Bool := p.components == [.name "-"]

/-- The files that one path stands for. -/
def ofPath (fs : FileSystem) (p : Path) : List (Except WalkError Path) :=
  if isStandardInput p then []
  else match fs.find p, fs.node p with
    | .error cause, _ | _, .error cause => [.error (.unreachable p cause)]
    | .ok _, .ok (.file _) => [.ok p]
    | .ok l, .ok (.dir entries) =>
      let (outer, errors) := around fs l
      let top := (Layer.ofDirectory fs p entries).1
      let files := inOrder (below ⟨p, l, outer⟩ fs [top] p entries)
      (if errors.isEmpty then [] else [.error (.invalidRules errors)]) ++ files.map .ok

/-- The files that some paths stand for. -/
def ofPaths (fs : FileSystem) (paths : List Path) : List (Except WalkError Path) :=
  paths.flatMap (ofPath fs)

end Walk

end EditorConfig
