import Crosswalk.Archive.Checksum
import Crosswalk.Archive.Directory
import Crosswalk.Archive.Entry
import Crosswalk.Archive.Inflate

/-!
# Archives

An archive is opened by reading its directory. Every entry is stored, plain or deflated, behind a
header of its own, and its contents are read from the file as it is by then.

This account of the format, down to the records, checksums and codes, is the library's own. It makes
the programs run, and no theorem rests on it: what is proved about a mod in an archive holds for
whatever entries the archive is found to have.
-/

namespace Crosswalk

/-- The entries of an archive in the order of its directory. -/
structure Archive where
  entries : List ArchiveEntry
  deriving Repr

namespace Archive

/-- The archive in a file. -/
def ofBytes (contents : Array UInt8) : Except ArchiveFault Archive := do
  let directory ← Directory.ofBytes contents
  let entries ← ArchiveEntry.readAll contents directory.shift directory.count directory.start
  pure ⟨entries⟩

/-- The entry of a name. Of several ones the last one counts. -/
def entry? (a : Archive) (name : String) : Option ArchiveEntry :=
  a.entries.reverse.find? (·.name == name)

/-- How an entry is stored. -/
inductive Method
  | stored
  | deflated
  deriving DecidableEq, Repr

/-- The method with the given number. -/
def method? : Nat → Option Method
  | 0 => some .stored
  | 8 => some .deflated
  | _ => none

end Archive

namespace ArchiveEntry

open Archive (slice field)

/-- The bytes that an entry takes up in a file, and how they are stored. They may end with the
file. -/
def packed (e : ArchiveEntry) (contents : Array UInt8) :
    Except ArchiveFault (Archive.Method × Bytes) := do
  if e.isEncrypted then throw .encrypted
  if Archive.fileLimit ≤ e.header then throw .unreachableLocalHeader
  let signature ← slice contents e.header 4
  if signature ≠ Archive.localSignature then throw .badLocalHeader
  let header ← slice contents e.header 30
  match Archive.method? e.method with
  | none => throw .unknownMethod
  | some method =>
    if e.hasCipher then throw .encrypted
    let start := e.header + 30 + field header 26 2 + field header 28 2
    pure (method, (contents.extract start (start + e.size)).toList)

/-- Whether an entry can be opened in a file. -/
def canOpen (e : ArchiveEntry) (contents : Array UInt8) : Bool :=
  (e.packed contents).toBool

/-- The contents of an entry in a file, which have to have the checksum of the directory. -/
def unpack (e : ArchiveEntry) (contents : Array UInt8) : Except ArchiveFault Bytes := do
  let (method, stored) ← e.packed contents
  let unpacked ←
    match method with
    | .stored => pure stored
    | .deflated => inflate stored
  if (Checksum.ofBytes unpacked).toNat = e.checksum then pure unpacked else throw .wrongChecksum

end ArchiveEntry

end Crosswalk
