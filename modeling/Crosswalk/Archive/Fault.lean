/-!
# Archive faults

Why an archive cannot be opened, or an entry of it cannot be read.
-/

namespace Crosswalk

/-- What is wrong with an archive. -/
inductive ArchiveFault
  /-- The file is shorter than the record at the end of every archive. -/
  | tooShort
  /-- The file has no record at its end. -/
  | noEndRecord
  /-- There is no room for the wide record that the archive says it has. -/
  | noRoomForWideRecord
  /-- The archive says that it has a wide record, but there is none. -/
  | noWideRecord
  /-- The file ends within a record. -/
  | truncated
  | severalDisks
  /-- The directory would start before the file, or beyond all numbers. -/
  | badDirectoryPlace
  /-- The directory would start where no file can go on. -/
  | unreachableDirectory
  | badDirectoryHeader
  /-- The header of an entry would start beyond all numbers. -/
  | localHeaderTooFar
  /-- The header of an entry would start where no file can go on. -/
  | unreachableLocalHeader
  | badLocalHeader
  /-- An entry is enciphered, but nothing tells how. -/
  | noCipher
  | badCipherLength
  | badCipherVendor
  | badCipherVersion
  | badCipherStrength
  | encrypted
  | unknownMethod
  | wrongChecksum
  | corruptData
  /-- The data of an entry end too early. -/
  | incompleteData
  deriving DecidableEq, Repr

namespace ArchiveFault

/-- The wording of something that no archive should have. -/
def invalid (text : String) : String :=
  "invalid Zip archive: " ++ text

/-- The wording of something that cannot be read. -/
def unsupported (text : String) : String :=
  "unsupported Zip archive: " ++ text

/-- The wording of a fault. -/
def message : ArchiveFault → String
  | tooShort => invalid "Invalid zip header"
  | noEndRecord => invalid "Could not find central directory end"
  | noRoomForWideRecord => invalid "File cannot contain ZIP64 central directory end"
  | noWideRecord => invalid "Could not find ZIP64 central directory end"
  | truncated => "failed to fill whole buffer"
  | severalDisks => unsupported "Support for multi-disk files is not implemented"
  | badDirectoryPlace => invalid "Invalid central directory size or offset"
  | unreachableDirectory => invalid "Could not seek to start of central directory"
  | badDirectoryHeader => invalid "Invalid Central Directory header"
  | localHeaderTooFar => invalid "Archive header is too large"
  | unreachableLocalHeader => "Invalid argument (os error 22)"
  | badLocalHeader => invalid "Invalid local file header"
  | noCipher => invalid "AES encryption without AES extra data field"
  | badCipherLength => unsupported "AES extra data field has an unsupported length"
  | badCipherVendor => invalid "Invalid AES vendor"
  | badCipherVersion => invalid "Invalid AES vendor version"
  | badCipherStrength => invalid "Invalid AES encryption strength"
  | encrypted => unsupported "Password required to decrypt file"
  | unknownMethod => unsupported "Compression method not supported"
  | wrongChecksum => "Invalid checksum"
  | corruptData => "corrupt deflate stream"
  | incompleteData => "incomplete deflate stream"

end ArchiveFault

end Crosswalk
