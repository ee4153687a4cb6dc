/-!
# Candidates for configuration screens

The classes of a mod that look like configuration screens, in the order in which they were found.
-/

namespace Crosswalk

/-- Names of classes in the order in which they were found. -/
structure Candidates where
  found : Array String
  deriving DecidableEq, Inhabited

namespace Candidates

/-- No candidates. -/
def empty : Candidates := ⟨#[]⟩

/-- Adds a candidate at the end. -/
def add (c : Candidates) (name : String) : Candidates :=
  ⟨c.found.push name⟩

/-- The candidates in order. -/
def names (c : Candidates) : List String :=
  c.found.toList

/-- The number of candidates. -/
def size (c : Candidates) : Nat :=
  c.found.size

/-- Whether a class is a candidate. -/
def contains (c : Candidates) (name : String) : Bool :=
  c.found.contains name

@[simp] theorem names_empty : empty.names = [] := rfl

/-- A class that is added comes last. -/
@[simp] theorem names_add (c : Candidates) (name : String) :
    (c.add name).names = c.names ++ [name] := by
  simp [names, add]

end Candidates

end Crosswalk
