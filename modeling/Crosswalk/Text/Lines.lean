/-!
# Lines and columns

A text falls into lines at each newline, and a line into columns at each tab. A carriage return
before a newline belongs to the end of the line. What follows the last newline is a line unless it
is empty.
-/

namespace Crosswalk.Lines

/-- The parts of a text between the separators. -/
def split (separator : Char) (text : String) : List String :=
  (text.toList.splitOn separator).map String.ofList

/-- A line without the carriage return at its end. -/
def dropReturn (line : String) : String :=
  match ['\r'].isSuffixOf? line.toList with
  | some rest => String.ofList rest
  | none => line

/-- The lines of a text. -/
def ofText (text : String) : List String :=
  let parts := split '\n' text
  let last := parts.getLast?.getD ""
  parts.dropLast.map dropReturn ++ (if last.isEmpty then [] else [last])

/-- The columns of a line. -/
def columns (line : String) : List String :=
  split '\t' line

end Crosswalk.Lines
