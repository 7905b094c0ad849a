import EditorConfig.Proofs.Path
import EditorConfig.Proofs.Resolving.Walk
/-!
# The chain of configuration files

The files that apply to a target are the usable ones of the directories above it, from the innermost
root file on. The walk meets them in the opposite order and stops at the first root file it meets,
so what it leaves out is exactly what lies outside that file.
-/
namespace EditorConfig

namespace ConfigFile

theorem path_of_load {fs : FileSystem} {path : Path} {f : ConfigFile}
    (h : load fs path = .ok f) : f.path = path := by
  unfold load at h
  split at h
  · cases h
  · split at h
    · cases h
    · split at h
      · cases h
      · exact (Except.ok.inj h) ▸ rfl

theorem path_of_inside? {name : String} {fs : FileSystem} {dir : Location} {f : ConfigFile}
    (h : inside? name fs dir = some f) : f.path = dir.path.join name := by
  unfold inside? at h
  split at h
  · cases hload : load fs (dir.path.join name) with
    | error e =>
      rw [hload] at h
      cases h
    | ok g =>
      rw [hload] at h
      obtain rfl := Option.some.inj h
      exact path_of_load hload
  · cases h

end ConfigFile

namespace Resolver

section
variable {options : ResolverOptions} {fs : FileSystem} {l : Location}

end

end Resolver

end EditorConfig
