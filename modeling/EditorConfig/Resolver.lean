import EditorConfig.Event
/-!
# Resolving

The configuration of a file comes from the configuration files in the directories that hold it. The
walk goes from the inside outwards and ends at the first file that declares itself the root; then
the sections that match are merged from the outermost file to the innermost, so that nearer and
later ones win. A missing or unusable file and a section with an invalid pattern are passed over.

A walk is a list of `Visit`s, one for each directory that was looked at. What it finds and what it
reports are read off that list, and so is what a caching resolver remembers: for each directory the
outcome of its first visit, also the outcome that there is nothing to use.

A pattern with a range that cannot be written out is passed over here like an invalid one, but with
a fatal event. A reply with such an event is never given: the program has ended before.
-/
namespace EditorConfig

/-- How configuration files are looked for and read. -/
structure ResolverOptions where
  /-- The name that is looked for in every directory. -/
  fileName : String
  /-- Values that the ranges of numerals of one pattern may stand for. -/
  maxAlternatives : Nat
  /-- Whether what is found in a directory is remembered. -/
  cache : Bool
deriving DecidableEq, Repr

/-- The options when nothing is said. -/
def ResolverOptions.default : ResolverOptions := ⟨".editorconfig", Glob.defaultLimit, false⟩

/-- A configuration file with the globs of its sections. -/
structure CompiledConfig where
  file : ConfigFile
  globs : List (Except Glob.CompileError Glob)

namespace CompiledConfig

/-- Compiles the patterns of a configuration file, each by itself. -/
def ofFile [Glob.Engine] (limit : Nat) (file : ConfigFile) : CompiledConfig :=
  ⟨file, file.sections.map fun s => Glob.compile s.pattern limit⟩

/-- The sections whose glob matches a path relative to the directory of the file. -/
def matching (c : CompiledConfig) (relative : String) : List Section :=
  (c.file.sections.zip c.globs).filterMap fun (s, glob) =>
    match glob with
    | .ok g => if g.isMatch relative then some s else none
    | .error _ => none

/-- What is told when the file has been loaded and compiled. -/
def events (c : CompiledConfig) : List Event :=
  Event.skippedLines c.file ++
  .loadedConfig c.file ::
  c.globs.filterMap fun
    | .ok _ => none
    | .error e => some (.invalidPattern c.file.path e)

end CompiledConfig

/-- What looking into a directory gave. -/
inductive Finding where
  /-- There is no configuration file. -/
  | absent
  /-- There is one that cannot be used. -/
  | unusable (error : LoadError)
  | usable (config : CompiledConfig)

namespace Finding

/-- The configuration, if there is one to use. -/
def config? : Finding → Option CompiledConfig
  | usable config => some config
  | _ => none

/-- What is told about it. -/
def events : Finding → List Event
  | absent => []
  | unusable error => [.unreadableConfig error]
  | usable config => config.events

/-- Looks for the configuration file of a directory. -/
def look [Glob.Engine] (options : ResolverOptions) (fs : FileSystem) (dir : Location) : Finding :=
  let path := dir.path.join options.fileName
  if fs.isFile path then
    match ConfigFile.load fs path with
    | .ok file => usable (.ofFile options.maxAlternatives file)
    | .error e => unusable e
  else absent

end Finding

/-- One step of a walk: a directory, what it contributes and what there was to tell. -/
structure Visit where
  dir : Location
  config? : Option CompiledConfig
  events : List Event

/-- Whether a walk ends here. -/
def Visit.isLast (v : Visit) : Bool := v.config?.any fun c => c.file.isRoot

/-- A section that applies to a file, and how the file is seen from its directory. -/
structure Hit where
  config : Path
  matched : Section
  target : String
deriving DecidableEq, Repr

/-- Finds the configuration of files. -/
structure Resolver where
  options : ResolverOptions
  /-- What the directories visited so far contribute, if it is remembered at all. -/
  known : List (Location × Option CompiledConfig)

/-- An answer, what there was to tell on the way, and the resolver to ask next. -/
structure Reply (α : Type) where
  answer : α
  events : List Event
  resolver : Resolver

/-- Another answer from the same walk. -/
def Reply.map {α β : Type} (f : α → β) (r : Reply α) : Reply β :=
  ⟨f r.answer, r.events, r.resolver⟩

namespace Resolver
variable [Glob.Engine]

/-- A resolver that has visited nothing. -/
def new (options : ResolverOptions) : Resolver := ⟨options, []⟩

/-- Visits a directory. What is remembered is not looked for again and nothing is told about it. -/
def visit (r : Resolver) (fs : FileSystem) (dir : Location) : Visit :=
  match r.known.lookup dir with
  | some config? => ⟨dir, config?, []⟩
  | none =>
    let found := Finding.look r.options fs dir
    ⟨dir, found.config?, found.events⟩

/-- Visits directories in turn, up to the first with a root file. -/
def walk (r : Resolver) (fs : FileSystem) : List Location → List Visit
  | [] => []
  | dir :: outer =>
    let v := r.visit fs dir
    if v.isLast then [v] else v :: walk r fs outer

/-- What a caching resolver knows after some visits. -/
def remember (r : Resolver) (visits : List Visit) : Resolver :=
  if r.options.cache then
    { r with known := visits.foldl (fun known v =>
        if (known.lookup v.dir).isSome then known else (v.dir, v.config?) :: known) r.known }
  else r

/-- The configurations that visits found, the outermost first. -/
def chainOf (visits : List Visit) : List CompiledConfig := (visits.filterMap Visit.config?).reverse

/-- The sections that apply to a target, in the order in which they are merged. -/
def hits (chain : List CompiledConfig) (target : Location) : List Hit :=
  chain.flatMap fun c =>
    match target.relativeTo? c.file.directory with
    | none => []
    | some relative => (c.matching relative).map fun s => ⟨c.file.path, s, relative⟩

/-- The merged properties of the sections that apply. -/
def merge (hits : List Hit) : Properties :=
  hits.foldl (fun p h => p.merge h.matched.properties) .empty

/-- What is told about a section that applies. -/
def hitEvent (h : Hit) : Event := .sectionMatched h.config h.matched.pattern h.target

/-- Walks for a target, and answers from the configurations found. A target that cannot be folded
to a location has none. -/
def consult {α : Type} (r : Resolver) (fs : FileSystem) (target : Path) (nothing : α)
    (answer : Location → List CompiledConfig → α × List Event) : Reply α :=
  match fs.locate target with
  | .error e => ⟨nothing, [.notAbsolute target e], r⟩
  | .ok l =>
    let visits := r.walk fs l.ancestors
    let (a, events) := answer l (chainOf visits)
    ⟨a, visits.flatMap Visit.events ++ events, r.remember visits⟩

/-- The properties that apply to a target. -/
def resolve (r : Resolver) (fs : FileSystem) (target : Path) : Reply Properties :=
  r.consult fs target .empty fun l chain =>
    (merge (hits chain l), (hits chain l).map hitEvent)

/-- The typed rules that apply to a target. -/
def rules (r : Resolver) (fs : FileSystem) (target : Path) : Reply Rules :=
  (r.resolve fs target).map Rules.ofProperties

/-- The configuration files that apply to a target, the outermost first. -/
def configChain (r : Resolver) (fs : FileSystem) (target : Path) : Reply (List ConfigFile) :=
  r.consult fs target [] fun _ chain => (chain.map CompiledConfig.file, [])

end Resolver

end EditorConfig
