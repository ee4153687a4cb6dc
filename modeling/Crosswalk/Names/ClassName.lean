/-!
# Class names

A class is asked for by its dotted name or by its internal name, which has slashes for dots. Both
normalize to the same `ClassName`. A class file lies at the internal name with the ending `.class`.
-/

namespace Crosswalk

/-- The internal name of a class. -/
structure ClassName where
  text : String
  hasNoDot : '.' ∉ text.toList
  deriving DecidableEq

namespace ClassName

instance : Hashable ClassName := ⟨fun name => hash name.text⟩

/-- The ending of a class file. -/
def fileEnding : String := ".class"

/-- Puts `new` in place of a character. -/
def replace (old new : Char) (text : String) : String :=
  String.ofList (text.toList.map fun c => if c = old then new else c)

/-- The class of a dotted or internal name. -/
def normalize (name : String) : ClassName where
  text := replace '.' '/' name
  hasNoDot := by
    simp only [replace, String.toList_ofList, List.mem_map, not_exists, not_and]
    intro c _
    split <;> simp_all

/-- The dotted form of a name. -/
def dotted (name : ClassName) : String :=
  replace '/' '.' name.text

/-- Where the class file lies. -/
def filePath (name : ClassName) : String :=
  name.text ++ fileEnding

/-- The class whose file lies at a path, if a name stands before the ending. -/
def ofFilePath? (path : String) : Option ClassName :=
  match fileEnding.toList.isSuffixOf? path.toList with
  | some [] | none => none
  | some stem => some (normalize (String.ofList stem))

/-- A name without dots is its own normal form. -/
theorem text_normalize_of_not_mem {name : String} (h : '.' ∉ name.toList) :
    (normalize name).text = name := by
  have same : ∀ c ∈ name.toList, (if c = '.' then '/' else c) = c := by
    intro c hc
    split
    · simp_all
    · rfl
  simp only [normalize, replace]
  rw [List.map_congr_left same, List.map_id']
  simp

end ClassName

end Crosswalk
