/-!
# File faults

Why a file cannot be read or written. The wording is that of the operating system where the fault
is its own.
-/

namespace Crosswalk

/-- Why a file operation fails. -/
inductive FileFault
  | notFound
  /-- Something that is no directory stands where a path goes on. -/
  | notADirectory
  | isADirectory
  | alreadyExists
  | nameTooLong
  /-- A path holds the null character. -/
  | holdsNull
  /-- The contents are no text. -/
  | notText
  deriving DecidableEq, Repr

namespace FileFault

/-- A fault that the operating system has a number for. -/
def numbered (text : String) (number : Nat) : String :=
  s!"{text} (os error {number})"

/-- The wording of a fault. -/
def message : FileFault → String
  | notFound => numbered "No such file or directory" 2
  | notADirectory => numbered "Not a directory" 20
  | isADirectory => numbered "Is a directory" 21
  | alreadyExists => numbered "File exists" 17
  | nameTooLong => numbered "File name too long" 36
  | holdsNull => "file name contained an unexpected NUL byte"
  | notText => "stream did not contain valid UTF-8"

end FileFault

end Crosswalk
