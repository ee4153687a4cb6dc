/-!
# Nested class names

The name of a nested class is that of the class around it, a dollar sign and a name of its own,
which holds no dollar sign. `split?` takes a name apart at its last dollar sign and `join` puts it
together.
-/

namespace Crosswalk.Nested

/-- The name of a class inside another one. -/
def join (outer inner : String) : String :=
  outer ++ "$" ++ inner

/-- The parts around the last dollar sign, if there is one. -/
def split? (name : String) : Option (String × String) :=
  let backwards := name.toList.reverse
  match backwards.dropWhile (· ≠ '$') with
  | _ :: outer =>
    some (String.ofList outer.reverse, String.ofList (backwards.takeWhile (· ≠ '$')).reverse)
  | [] => none

/-- What follows `outer` and a dollar sign in a name that starts so. -/
def inside? (outer name : String) : Option String :=
  ((join outer "").toList.isPrefixOf? name.toList).map String.ofList

/-- The last dollar sign is what counts. -/
example : split? "A$B$C" = some ("A$B", "C") := by decide

end Crosswalk.Nested
