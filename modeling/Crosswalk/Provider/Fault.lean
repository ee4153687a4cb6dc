import Crosswalk.ClassFile.Malformed
import Crosswalk.ClassTree.PoolBuilder
import Crosswalk.Mappings.Reading
import Crosswalk.Names.ClassName
import Crosswalk.Source.Basic

/-!
# Faults of a provider

Why a class or a resource cannot be served. Every fault has one underneath, which says what went
wrong; a fault about a class also says which one.
-/

namespace Crosswalk

/-- Why something cannot be served. -/
inductive ServeFault
  /-- The mod cannot be read, or a file cannot be written. -/
  | source (fault : SourceFault)
  | malformed (name : ClassName) (fault : Malformed)
  /-- The class with its new names finds no room in a pool. -/
  | overflow (name : ClassName) (fault : Overflow)
  | mappings (fault : MappingFault)
  deriving DecidableEq

namespace ServeFault

/-- The wording of the fault underneath. -/
def cause : ServeFault → String
  | source fault => fault.message
  | malformed _ fault => fault.message
  | overflow _ fault => fault.message
  | mappings fault => fault.message

/-- The wording of a fault. -/
def message (f : ServeFault) : String :=
  match f with
  | source _ => s!"i/o error: {f.cause}"
  | malformed name _ => s!"class {name.dotted}: {f.cause}"
  | overflow name _ => s!"cannot encode class {name.dotted}: {f.cause}"
  | mappings _ => f.cause

end ServeFault

end Crosswalk
