import Crosswalk.Archive.Record
import Crosswalk.Text.CodePage437
import Crosswalk.Text.Utf8

/-!
# Entries of archives

The directory lists each entry with its name, with how and where it is stored, and with fields
behind its name. Such a field has what the entry itself has no room for: numbers of eight bytes, and
how the entry is enciphered.
-/

namespace Crosswalk

/-- An entry as the directory lists it. -/
structure ArchiveEntry where
  name : String
  isEncrypted : Bool
  /-- Whether a field tells how the entry is enciphered. -/
  hasCipher : Bool
  method : Nat
  checksum : Nat
  /-- How many bytes it takes up in the archive. -/
  size : Nat
  /-- How many bytes it has when it is unpacked. -/
  unpackedSize : Nat
  /-- Where its own header starts. -/
  header : Nat
  deriving Repr, Inhabited

namespace ArchiveEntry

open Archive (slice field number overflow bound)

/-! ## Fields behind the name -/

/-- What is read of a field: the entry with what it tells, and how many bytes it takes up. A field
that is cut off is the last one. -/
abbrev FieldRead := ArchiveEntry × Option Nat

/-- Reads a number of eight bytes, `taken` bytes into a field, if the entry has no room for it. -/
def widen (value : Nat) (rest : Bytes) (taken : Nat) : Option (Nat × Nat) :=
  if value ≠ overflow 4 then some (value, taken)
  else if rest.length < taken + 8 then none
  else some (field rest taken 8, taken + 8)

/-- Reads a field of wide numbers. It has only those that the entry has no room for, and may take up
more than its length. -/
def readWide (e : ArchiveEntry) (length : Nat) (rest : Bytes) : FieldRead :=
  match widen e.unpackedSize rest 0 with
  | none => (e, none)
  | some (unpackedSize, taken) =>
    let e := { e with unpackedSize }
    match widen e.size rest taken with
    | none => (e, none)
    | some (size, taken) =>
      let e := { e with size }
      match widen e.header rest taken with
      | none => (e, none)
      | some (header, taken) => ({ e with header }, some (max taken length))

/-- The method that stands for an enciphered entry. The true one is in the field of its cipher. -/
def cipherMethod : Nat := 99

/-- The vendor of the only known cipher. -/
def cipherVendor : Nat := 0x4541

/-- Reads the field of a cipher, which is passed over once more after it has been read. -/
def readCipher (e : ArchiveEntry) (length : Nat) (rest : Bytes) :
    Except ArchiveFault FieldRead := do
  if length ≠ 7 then throw .badCipherLength
  if rest.length < 7 then return (e, none)
  let version := field rest 0 2
  let strength := field rest 4 1
  if field rest 2 2 ≠ cipherVendor then throw .badCipherVendor
  if ¬(1 ≤ version ∧ version ≤ 2) then throw .badCipherVersion
  if ¬(1 ≤ strength ∧ strength ≤ 3) then throw .badCipherStrength
  pure ({ e with hasCipher := true, method := field rest 5 2 }, some 14)

/-- Reads a field of the given kind. Only two kinds matter. -/
def readField (e : ArchiveEntry) (kind length : Nat) (rest : Bytes) :
    Except ArchiveFault FieldRead :=
  if kind = 0x0001 then .ok (e.readWide length rest)
  else if kind = 0x9901 then e.readCipher length rest
  else .ok (e, some length)

/-- Reads the fields behind a name, each after its kind and its length. -/
def readFields (e : ArchiveEntry) : Bytes → Except ArchiveFault ArchiveEntry
  | k₀ :: k₁ :: l₀ :: l₁ :: rest => do
    match ← e.readField (number [k₀, k₁]) (number [l₀, l₁]) rest with
    | (e, none) => pure e
    | (e, some taken) => e.readFields (rest.drop taken)
  | _ => .ok e
termination_by fields => fields.length
decreasing_by simp +arith

/-! ## Entries of the directory -/

/-- The text of a name, which is in code page 437 unless a flag says otherwise. -/
def nameText (flags : Nat) (name : Bytes) : String :=
  if flags.testBit 11 then Utf8.lossy name else CodePage437.decode name

/-- Reads an entry of the directory, and where the next one starts. All places are shifted. -/
def read (contents : Array UInt8) (shift place : Nat) :
    Except ArchiveFault (ArchiveEntry × Nat) := do
  let signature ← slice contents place 4
  if signature ≠ Archive.directorySignature then throw .badDirectoryHeader
  let record ← slice contents place 46
  let nameLength := field record 28 2
  let fieldsLength := field record 30 2
  let commentLength := field record 32 2
  let name ← slice contents (place + 46) nameLength
  let fields ← slice contents (place + 46 + nameLength) fieldsLength
  let next := place + 46 + nameLength + fieldsLength + commentLength
  let _ ← slice contents (next - commentLength) commentLength
  let flags := field record 8 2
  let listed : ArchiveEntry :=
    { name := nameText flags name, isEncrypted := flags.testBit 0, hasCipher := false
      method := field record 10 2, checksum := field record 16 4, size := field record 20 4
      unpackedSize := field record 24 4, header := field record 42 4 }
  let entry ← listed.readFields fields
  if entry.method = cipherMethod && !entry.hasCipher then throw .noCipher
  if bound 8 ≤ entry.header + shift then throw .localHeaderTooFar
  pure ({ entry with header := entry.header + shift }, next)

/-- Reads `n` entries of the directory in a row. -/
def readAll (contents : Array UInt8) (shift : Nat) :
    Nat → Nat → Except ArchiveFault (List ArchiveEntry)
  | 0, _ => .ok []
  | n + 1, place => do
    let (entry, next) ← read contents shift place
    let rest ← readAll contents shift n next
    pure (entry :: rest)

/-- Whether the name of an entry is that of a directory. -/
def isDirectory (e : ArchiveEntry) : Bool :=
  let last := e.name.toList.getLast?
  last == some '/' || last == some '\\'

end ArchiveEntry

end Crosswalk
