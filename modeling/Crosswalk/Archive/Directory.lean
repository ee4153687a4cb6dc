import Crosswalk.Archive.Record

/-!
# The directory of an archive

The record at the end of an archive says where its directory is. The archive may have something else
in front of it, by which all places are then shifted: the directory ends right before the record, so
the shift is what its size and its place leave over.

The numbers of a large directory do not fit into that record. They are in a wide one, and right
before the record at the end there is a locator, which says where the wide one should be. There the
shift is how much later the wide record is found.
-/

namespace Crosswalk.Archive

/-- The record at the end. -/
structure EndRecord where
  /-- Where the record starts. -/
  place : Nat
  disk : Nat
  directoryDisk : Nat
  /-- How many entries the directory has on this disk. -/
  countHere : Nat
  /-- How many entries the directory has on all disks. -/
  count : Nat
  size : Nat
  start : Nat
  /-- How long the comment after the record is. -/
  comment : Nat
  deriving Repr, DecidableEq

namespace EndRecord

/-- Whether a number did not fit into the record. -/
def overflows (e : EndRecord) : Bool :=
  [e.disk, e.directoryDisk, e.countHere, e.count].contains (overflow 2) ||
    [e.size, e.start].contains (overflow 4)

/-- Whether the record tells of a directory on another disk than the given one. What did not fit
into the record does not count. -/
def isElsewhere (e : EndRecord) (disk : Nat) : Bool :=
  !e.overflows && e.disk != disk

/-- The last record of an archive. A comment of up to 65535 bytes may follow it. -/
def ofBytes (contents : Array UInt8) : Except ArchiveFault EndRecord := do
  if contents.size < 22 then throw .tooShort
  let candidates := places (contents.size - (22 + overflow 2)) (contents.size - 22)
  match candidates.reverse.find? (startsAt contents endSignature) with
  | none => throw .noEndRecord
  | some place =>
    let record ← slice contents place 22
    let comment := field record 20 2
    let _ ← slice contents (place + 22) comment
    pure
      { place, comment, disk := field record 4 2, directoryDisk := field record 6 2
        countHere := field record 8 2, count := field record 10 2, size := field record 12 4
        start := field record 16 4 }

end EndRecord

/-- Where the directory is. -/
structure Directory where
  /-- By how much all places are shifted. -/
  shift : Nat
  start : Nat
  count : Nat
  deriving Repr, DecidableEq

namespace Directory

/-- The directory right before the record at the end. -/
def ofEndRecord (e : EndRecord) : Except ArchiveFault Directory :=
  if e.place < e.size + e.start then .error .badDirectoryPlace
  else .ok ⟨e.place - e.size - e.start, e.place - e.size, e.countHere⟩

/-- What a locator says: the disk of the directory, and the place of the wide record. It has to
stand right before the record at the end, and that one right before a comment of the given
length. -/
def locator? (contents : Array UInt8) (comment : Nat) : Option (Nat × Nat) :=
  let start := contents.size - (42 + comment)
  if 42 + comment ≤ contents.size && startsAt contents locatorSignature start then
    let record := (contents.extract start (start + 20)).toList
    some (field record 4 4, field record 8 8)
  else none

/-- The directory that a wide record tells of. It is looked for from a place on, and there have to
be at least 60 bytes from its start to that of the record at the end. -/
def ofWideRecord (contents : Array UInt8) (first endPlace : Nat) :
    Except ArchiveFault Directory := do
  if endPlace < 60 then throw .noRoomForWideRecord
  match (places first (endPlace - 60)).find? (startsAt contents wideSignature) with
  | none => throw .noWideRecord
  | some place =>
    let record ← slice contents place 56
    if field record 16 4 ≠ field record 20 4 then throw .severalDisks
    let shift := place - first
    let start := field record 48 8 + shift
    if bound 8 ≤ start then throw .badDirectoryPlace
    pure ⟨shift, start, field record 32 8⟩

/-- The directory of an archive. -/
def ofBytes (contents : Array UInt8) : Except ArchiveFault Directory := do
  let e ← EndRecord.ofBytes contents
  if e.isElsewhere e.directoryDisk then throw .severalDisks
  let directory ←
    match locator? contents e.comment with
    | none => ofEndRecord e
    | some (disk, place) =>
      if e.isElsewhere disk then throw .severalDisks
      ofWideRecord contents place e.place
  if fileLimit ≤ directory.start then throw .unreachableDirectory
  pure directory

end Directory

end Crosswalk.Archive
