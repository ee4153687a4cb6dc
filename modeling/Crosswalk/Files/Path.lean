/-!
# Paths

A path is a text with slashes between its segments, and absolute if it starts with one. Paths are
joined as texts; what they lead to is found out only where there are files.
-/

namespace Crosswalk.Path

/-- Whether a path starts at the root. -/
def isAbsolute (path : String) : Bool :=
  path.toList.head? == some '/'

/-- A path, seen from a base. An absolute one does not depend on the base. -/
def join (base path : String) : String :=
  if isAbsolute path then path
  else if base.isEmpty || base.toList.getLast? == some '/' then base ++ path
  else base ++ "/" ++ path

/-- What stands between the slashes of a path, empty segments included. -/
def segments (path : String) : List String :=
  (path.toList.splitOn '/').map String.ofList

/-- Whether a segment leads nowhere else than to a name in the same directory. -/
def isName (segment : String) : Bool :=
  segment != "" && segment != "." && segment != ".."

/-- Appends the names of a path to a base, so that the result is never outside of the base. -/
def below (base path : String) : String :=
  ((segments path).filter isName).foldl join base

/-- The segments that count: empty ones do not, and neither does the current directory, except at
the front of a relative path. -/
def significant (path : String) : List String :=
  let leading := if (segments path).head? == some "." then ["."] else []
  leading ++ (segments path).filter fun s => s != "" && s != "."

/-- The path with the given segments. -/
def ofSegments (absolute : Bool) (segments : List String) : String :=
  (if absolute then "/" else "") ++ "/".intercalate segments

/-- The paths of the directories that a path lies in, the nearest one first. The last one is the
root, or the empty path for a relative one. -/
def above (path : String) : List String :=
  let names := significant path
  (List.range names.length).reverse.map fun n => ofSegments (isAbsolute path) (names.take n)

/-- The path of the directory that a path lies in. The root and the empty path have none. -/
def parent? (path : String) : Option String :=
  (above path).head?

end Crosswalk.Path
