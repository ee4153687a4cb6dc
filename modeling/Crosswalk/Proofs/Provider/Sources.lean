import Crosswalk.ClassTree.Reading
import Crosswalk.Names.ClassName
import Crosswalk.Source.Basic

/-!
# Sources that stay as they are

What is said about several lookups together is said of sources that stay as they are when they are
read (`ModSource.Steady`), such as a list of files in memory.
-/

namespace Crosswalk

/-- Reading does not change a source. -/
def ModSource.Steady {σ : Type} [ModSource σ] (s : σ) : Prop :=
  ∀ fs path, (ModSource.read fs s path).2 = s

/-- The class in the file of a class, if it can be read. -/
def ModSource.class? {σ : Type} [ModSource σ] (fs : FileSystem) (s : σ) (name : ClassName) :
    Option ClassTree :=
  if ModSource.has fs s name.filePath then
    match (ModSource.read fs s name.filePath).1 with
    | .ok raw => (decode raw).toOption
    | .error _ => none
  else none

/-- A mod has a class if it has a file for it that can be read. -/
theorem ModSource.class?_eq_some_iff {σ : Type} [ModSource σ] {fs : FileSystem} {s : σ}
    {name : ClassName} {c : ClassTree} : ModSource.class? fs s name = some c ↔
      ModSource.has fs s name.filePath = true ∧
        ∃ raw, (ModSource.read fs s name.filePath).1 = .ok raw ∧ decode raw = .ok c := by
  unfold ModSource.class?
  cases ModSource.has fs s name.filePath with
  | false => simp
  | true =>
    cases (ModSource.read fs s name.filePath).1 with
    | error fault => simp
    | ok raw => cases hdecode : decode raw <;> simp [Except.toOption, hdecode]

/-- A mod in memory. -/
structure MemorySource where
  files : List (String × Bytes)

namespace MemorySource

instance : ModSource MemorySource where
  has _ s path := (s.files.lookup path).isSome
  read _ s path :=
    match s.files.lookup path with
    | some contents => (.ok contents, s)
    | none => (.error (.noEntry path), s)
  locate _ _ path := .ok ⟨"mem:/" ++ path⟩
  entries _ s := s.files.map Prod.fst

/-- A source in memory has the classes of its files. -/
theorem class?_of_lookup {fs : FileSystem} {s : MemorySource} {name : ClassName} {raw : Bytes}
    {c : ClassTree} (h : s.files.lookup name.filePath = some raw) (hdecode : decode raw = .ok c) :
    ModSource.class? fs s name = some c := by
  refine ModSource.class?_eq_some_iff.2 ⟨?_, raw, ?_, hdecode⟩ <;>
    simp [ModSource.has, ModSource.read, h]

/-- What is in memory stays as it is. -/
theorem steady (s : MemorySource) : ModSource.Steady s := by
  intro fs path
  cases h : s.files.lookup path <;> simp [ModSource.read, h]

end MemorySource

end Crosswalk
