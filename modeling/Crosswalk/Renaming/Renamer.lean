import Crosswalk.ClassTree.Basic
import Crosswalk.Renaming.Basic

/-!
# Renamers

A renamer knows a renaming, and gets to know classes before they are renamed, so that it can tell
which member a class has inherited.
-/

namespace Crosswalk

/-- A source of new names that learns from the classes it is shown. -/
class Renamer (ρ : Type) where
  learn : ρ → ClassTree → ρ
  /-- The renaming by what is known so far. -/
  current : ρ → Renaming

/-- Without a renamer every name stays as it is. -/
instance {ρ : Type} [Renamer ρ] : Renamer (Option ρ) where
  learn known c := known.map fun r => Renamer.learn r c
  current known := (known.map Renamer.current).getD .identity

end Crosswalk
