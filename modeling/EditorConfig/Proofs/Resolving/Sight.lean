import EditorConfig.Proofs.Glob.Reading
import EditorConfig.Proofs.Path.Below
import EditorConfig.Proofs.Path.Parents
import EditorConfig.Proofs.Resolving.Cache
import EditorConfig.Proofs.Resolving.Chain
/-!
# The target as the files of its chain see it

A file of the chain was loaded from a directory above the target, now or when the resolver first
looked there, and is taken to lie in that directory. So the target is seen from every file of the
chain, none is left out when sections are matched, and what the globs look at is never empty. All of
this is told of names that are texts, which is what `Path` and `Location` hold.
-/
namespace EditorConfig

/-! ## Last segments -/

namespace Glob

/-- The last segment of joined names is the last name. -/
theorem basename_joined {name : String} (h : '/' ∉ name.toList) (front : List String) :
    basename (Location.joined (front ++ [name])).toList = name.toList := by
  by_cases alone : front = []
  · subst alone
    rw [List.nil_append, Location.joined_eq, String.intercalate_singleton]
    exact basename_of_no_separator h
  · have text : (Location.joined (front ++ [name])).toList =
        (Location.joined front).toList ++ '/' :: name.toList := by
      simp [Location.joined_append alone, Location.joined_eq]
    rw [text]
    exact basename_append h _

/-- However a place is seen, the last segment is its own name. -/
theorem basename_of_seenAs {l : Location} {dir : Path} {relative : String}
    (h : l.SeenAs dir relative) :
    ∃ name, l.head? = some name ∧ Path.IsName name ∧ basename relative.toList = name.toList := by
  obtain ⟨names, rfl, plain, last⟩ := h.plain
  rcases List.eq_nil_or_concat' names with rfl | ⟨front, name, rfl⟩
  · exact absurd rfl h.nonempty
  · have isName : Path.IsName name := plain name (by simp)
    rw [List.getLast?_concat] at last
    rw [← Location.joined_eq]
    exact ⟨name, last.symm, isName, basename_joined isName.no_separator front⟩

/-- No glob looks at an empty text when the last segment is not empty. -/
theorem candidate_ne_nil {path : String} (h : basename path.toList ≠ []) (g : Glob) :
    g.candidate path ≠ [] := by
  unfold candidate
  split
  · exact h
  · intro empty
    rw [empty] at h
    exact h rfl

end Glob

/-! ## Where files lie -/

/-- Where a file has been looked for is the directory that it is taken to lie in. -/
theorem Finding.directory_of_outcome [Glob.Engine] {options : ResolverOptions} {fs : FileSystem}
    {dir : Location} {name : String} {c : CompiledConfig}
    (hname : (Path.mk options.fileName).components = [.name name])
    (hdir : ∀ s ∈ dir, Path.IsName s) (h : outcome options fs dir = some c) :
    c.file.directory = dir.path := by
  rw [outcome_eq] at h
  obtain ⟨f, inside, rfl⟩ := Option.map_eq_some_iff.mp h
  have path : f.path = dir.path.join options.fileName := ConfigFile.path_of_inside? inside
  change f.directory = dir.path
  rw [ConfigFile.directory, path]
  exact Location.directory_join_of_components hdir hname

namespace Resolver

/-- What a resolver takes a directory to contribute has been there at some time. -/
theorem exists_outcome_of_after [Glob.Engine] {options : ResolverOptions} {past : List Call}
    {fs : FileSystem} {dir : Location} {c : CompiledConfig}
    (h : ((new options).after past).outcome fs dir = some c) :
    ∃ fs', Finding.outcome options fs' dir = some c := by
  cases hcache : options.cache with
  | false =>
    rw [after_uncached hcache] at h
    exact ⟨fs, h⟩
  | true =>
    rw [outcome_after hcache, frozen] at h
    cases first : firstOutcome options ((new options).log past) dir with
    | none => exact ⟨fs, by simpa [first] using h⟩
    | some config? =>
      obtain ⟨p, -, looked⟩ := List.exists_of_findSome?_eq_some first
      split at looked
      · obtain rfl := Option.some.inj looked
        exact ⟨p.fs, by simpa [first] using h⟩
      · cases looked

theorem chain_sublist (outcome : Location → Option CompiledConfig) (l : Location) :
    (chain outcome l).Sublist (l.ancestors.filterMap outcome).reverse :=
  ((upTo_sublist _ _).filterMap outcome).reverse

/-! ## Sections that apply -/

/-- The sections that apply to a target, if it is seen from every file. -/
def seenHits? (target : Location) : List CompiledConfig → Option (List Hit)
  | [] => some []
  | c :: inner =>
    (target.relativeTo? c.file.directory).bind fun relative =>
      (seenHits? target inner).map fun rest =>
        (c.matching relative).map (fun s => ⟨c.file.path, s, relative⟩) ++ rest

theorem seenHits?_eq_hits {target : Location} {chain : List CompiledConfig}
    (h : ∀ c ∈ chain, ∃ relative, target.relativeTo? c.file.directory = some relative) :
    seenHits? target chain = some (hits chain target) := by
  induction chain with
  | nil => rfl
  | cons c inner ih =>
    obtain ⟨⟨relative, seen⟩, others⟩ := List.forall_mem_cons.mp h
    rw [seenHits?, seen, ih others]
    simp [hits, seen]

/-- The walk goes through the paths that are left of the target when names are dropped from its end.
From every file that it finds the target is seen as plain names, from the outer ones through the
inner ones, so that no file is left out when sections are matched and no glob looks at an empty
text. -/
theorem chain_sees_target [Glob.Engine] (options : ResolverOptions) (past : List Call)
    (fs : FileSystem) (target : Path) (l : Location) (name : String)
    (hname : (Path.mk options.fileName).components = [.name name])
    (h : fs.locate target = .ok l) :
    let r := (new options).after past
    let chain := chainOf (r.walk fs l.ancestors)
    l.path.Shortens (l.path :: l.ancestors.map Location.path) ∧
    (∀ c ∈ chain, ∃ relative, l.SeenAs c.file.directory relative ∧
      Glob.basename relative.toList ≠ [] ∧ ∀ g : Glob, g.candidate relative ≠ []) ∧
    chain.Pairwise (fun outer inner => l.SeenThrough outer.file.directory inner.file.directory) ∧
    seenHits? l chain = some (hits chain l) ∧
    (r.resolve fs target).answer = merge (hits chain l) := by
  intro r chain
  have names := FileSystem.isName_of_locate h
  have found : chain = Resolver.chain (r.outcome fs) l := chainOf_walk r fs l
  have place : ∀ dir c, dir ∈ l.ancestors → r.outcome fs dir = some c →
      c.file.directory = dir.path := by
    intro dir c hdir hc
    obtain ⟨fs', looked⟩ := exists_outcome_of_after hc
    exact Finding.directory_of_outcome hname (Location.isName_of_mem_ancestors names hdir) looked
  have sight : ∀ c ∈ chain, ∃ relative, l.SeenAs c.file.directory relative := by
    intro c hc
    have contributed := (chain_sublist (r.outcome fs) l).subset (found ▸ hc)
    obtain ⟨dir, hdir, houtcome⟩ := List.mem_filterMap.mp (List.mem_reverse.mp contributed)
    rw [place dir c hdir houtcome]
    exact Location.exists_seenAs names hdir
  refine ⟨Location.shortens_path names, ?_, ?_, ?_, ?_⟩
  · intro c hc
    obtain ⟨relative, view⟩ := sight c hc
    obtain ⟨last, -, isName, segment⟩ := Glob.basename_of_seenAs view
    have nonempty : Glob.basename relative.toList ≠ [] := segment ▸ isName.toList_ne_nil
    exact ⟨relative, view, nonempty, Glob.candidate_ne_nil nonempty⟩
  · rw [found]
    have further := Location.pairwise_filterMap_ancestors (r.outcome fs) l
    refine (further.sublist (chain_sublist (r.outcome fs) l)).imp ?_
    rintro outer inner ⟨near, hnear, far, further, hfar, hinner, houter⟩
    rw [place near inner hnear hinner, place far outer hfar houter]
    exact Location.seenThrough_of_mem_ancestors names hnear further
  · refine seenHits?_eq_hits fun c hc => ?_
    obtain ⟨relative, view⟩ := sight c hc
    exact ⟨relative, view.seen⟩
  · rw [answer_resolve h, found]

-- The files of `nested` are gone again, and the target is seen from where they were.
example :
    let r := (new (ResolverOptions.default.withCache true)).after
      [⟨nested, .files, ⟨"/sub/b.js"⟩⟩]
    let l : Location := ["a.js", "deep", "sub"]
    (chainOf (r.walk ⟨.empty, []⟩ l.ancestors)).map (fun c => l.relativeTo? c.file.directory) =
      [some "sub/deep/a.js", some "deep/a.js"] := by
  decide +kernel

end Resolver

end EditorConfig
