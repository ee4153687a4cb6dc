import Crosswalk.ClassFile.Constant

/-!
# Malformed class files

Every reason for which bytes are no class file, or a class file cannot be resolved into names, is a
`Malformed`; `Malformed.message` is its wording.
-/

namespace Crosswalk

/-- The format version of a class file. -/
structure Version where
  major : UInt16
  minor : UInt16
  deriving DecidableEq, Repr, Inhabited

namespace Version

/-- The major versions that have this format and are known. -/
def isSupported (v : Version) : Bool :=
  45 ≤ v.major && v.major ≤ 69

/-- The minor version comes first. -/
def bytes (v : Version) : Bytes :=
  Bytes.ofUInt16 v.minor ++ Bytes.ofUInt16 v.major

end Version

/-- Why a class file is refused. -/
inductive Malformed
  /-- The bytes end too early. -/
  | truncatedFile
  /-- The first four bytes are not the ones of a class file. -/
  | badMagic (found : Bytes)
  | unsupportedVersion (version : Version)
  | invalidConstantTag (tag : UInt8)
  | invalidHandleKind (code : UInt8)
  | invalidText (fault : Modified.Fault)
  /-- The last constant takes up a slot behind the end of the pool. -/
  | overrunningConstant
  | trailingBytes (count : Nat)
  /-- No constant starts at the slot. -/
  | invalidIndex (index : Index)
  /-- The text in the slot has a surrogate without a partner. -/
  | invalidUtf16 (index : Index)
  | notUtf8 (index : Index) (found : Constant)
  | notClass (index : Index) (found : Constant)
  | notNameAndType (index : Index) (found : Constant)
  | notMember (found : Constant)
  | truncatedAttribute (name : String)
  | trailingAttributeBytes (name : String) (count : Nat)
  | invalidElementTag (tag : UInt8)
  | invalidVerificationTag (tag : UInt8)
  | reservedFrameTag (tag : UInt8)
  deriving DecidableEq

namespace Malformed

/-- The wording about a slot that holds another constant than it should. -/
def mismatch (index : Index) (wanted : String) (found : Constant) : String :=
  s!"constant {index.toNat} should be {wanted}, but is {found.text}"

/-- The wording of a reason, without the words that all of them share. -/
def reason : Malformed → String
  | truncatedFile => "truncated class file"
  | badMagic found =>
    "Bad magic header " ++ Constant.listed "[" "]"
      (found.map fun b => String.ofList (Hex.upperByte b))
  | unsupportedVersion v =>
    s!"Unsupported class file version {v.major.toNat}.{v.minor.toNat}"
  | invalidConstantTag tag => s!"Invalid constant pool tag {tag.toNat}"
  | invalidHandleKind code => s!"Invalid method handle kind {code.toNat}"
  | invalidText fault => fault.message
  | overrunningConstant => "Wide constant overruns the end of the constant pool"
  | trailingBytes count => s!"{count} unexpected trailing bytes"
  | invalidIndex index => s!"invalid constant pool index {index.toNat}"
  | invalidUtf16 index => s!"constant {index.toNat} is not valid UTF-16"
  | notUtf8 index found => mismatch index "Utf8" found
  | notClass index found => mismatch index "Class" found
  | notNameAndType index found => mismatch index "NameAndType" found
  | notMember found => s!"method handle points at {found.text}"
  | truncatedAttribute name => s!"truncated {name} attribute"
  | trailingAttributeBytes name count =>
    s!"{name} attribute has {count} unexpected trailing bytes"
  | invalidElementTag tag =>
    "invalid annotation element tag " ++ Quoted.char (Char.ofNat tag.toNat)
  | invalidVerificationTag tag => s!"invalid verification type tag {tag.toNat}"
  | reservedFrameTag tag => s!"reserved stack map frame tag {tag.toNat}"

/-- The wording of a reason. -/
def message (m : Malformed) : String :=
  "malformed class data: " ++ m.reason

end Malformed

end Crosswalk
