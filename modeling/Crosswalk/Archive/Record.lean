import Crosswalk.Archive.Fault
import Crosswalk.Bytes

/-!
# Records of archives

An archive is put together from records. Each kind of record starts with four bytes of its own, and
holds numbers of a fixed width at fixed places, the lowest byte first.
-/

namespace Crosswalk.Archive

/-- The bytes of a record, which have to be there. -/
def slice (contents : Array UInt8) (start length : Nat) : Except ArchiveFault Bytes :=
  if start + length ≤ contents.size then .ok (contents.extract start (start + length)).toList
  else .error .truncated

/-- The number that bytes spell, the lowest byte first. -/
def number : Bytes → Nat
  | [] => 0
  | b :: rest => b.toNat + 256 * number rest

/-- The number in the bytes of a record from a place on. -/
def field (record : Bytes) (start length : Nat) : Nat :=
  number ((record.drop start).take length)

/-- All numbers of the given count of bytes are below this one. -/
def bound (length : Nat) : Nat :=
  Nat.pow 256 length

/-- The number that is written for all those that are too large for their field. -/
def overflow (length : Nat) : Nat :=
  bound length - 1

/-- No file reaches this place. -/
def fileLimit : Nat := bound 8 / 2

/-! ## Signatures -/

/-- The four bytes that the record at the end starts with. -/
def endSignature : Bytes := [0x50, 0x4B, 5, 6]

/-- The four bytes that the wide record of the directory starts with. -/
def wideSignature : Bytes := [0x50, 0x4B, 6, 6]

/-- The four bytes that the record starts with which tells where the wide record is. -/
def locatorSignature : Bytes := [0x50, 0x4B, 6, 7]

/-- The four bytes that an entry of the directory starts with. -/
def directorySignature : Bytes := [0x50, 0x4B, 1, 2]

/-- The four bytes that the header of an entry starts with. -/
def localSignature : Bytes := [0x50, 0x4B, 3, 4]

/-- Whether four bytes stand at a place. -/
def startsAt (contents : Array UInt8) (signature : Bytes) (place : Nat) : Bool :=
  (contents.extract place (place + 4)).toList == signature

/-- The places from `first` to `last`. -/
def places (first last : Nat) : List Nat :=
  List.range' first (last + 1 - first)

end Crosswalk.Archive
