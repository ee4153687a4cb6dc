/-!
# Log records

What happens along the way is reported as records, each with a level that says how much it
matters.
-/

namespace Crosswalk

/-- How much a record matters. -/
inductive Level
  | error
  | warn
  | info
  | debug
  deriving DecidableEq, Repr

namespace Level

/-- The name of a level. -/
def name : Level → String
  | error => "ERROR"
  | warn => "WARN"
  | info => "INFO"
  | debug => "DEBUG"

/-- The place of a level, the most severe one first. -/
def rank : Level → Nat
  | error => 0
  | warn => 1
  | info => 2
  | debug => 3

end Level

/-- Something that is reported. -/
structure Record where
  level : Level
  message : String
  deriving DecidableEq, Repr

end Crosswalk
