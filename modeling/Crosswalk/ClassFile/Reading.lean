import Crosswalk.ClassFile.Basic
import Crosswalk.Reader

/-!
# Reading class files

`ClassFile.ofBytes` reads a whole class file and refuses bytes behind its end. Flags that the
holder does not know are dropped, and texts are decoded where they spell one.
-/

namespace Crosswalk

/-- A reader of some part of a class file. -/
abbrev FileReader := Reader Malformed

namespace FileReader

/-- The next byte. -/
def u8 : FileReader UInt8 := Reader.u8 .truncatedFile

/-- The next two bytes as a number. -/
def u16 : FileReader UInt16 := Reader.u16 .truncatedFile

/-- The next four bytes as a number. -/
def u32 : FileReader UInt32 := Reader.u32 .truncatedFile

/-- The next eight bytes as a number. -/
def u64 : FileReader UInt64 := Reader.u64 .truncatedFile

/-- The next bytes as they are. -/
def block (n : Nat) : FileReader Bytes := Reader.block .truncatedFile n

/-- A count and that many items. -/
def counted {α : Type} (item : FileReader α) : FileReader (List α) :=
  Reader.counted .truncatedFile item

end FileReader

open FileReader

/-- Reads the flags of a holder, as far as it knows them. -/
def Access.read (h : Holder) : FileReader (Access h) := do
  pure (known h (← u16))

/-- Reads the minor version and then the major one. -/
def Version.read : FileReader Version := do
  let minor ← u16
  let major ← u16
  pure ⟨major, minor⟩

namespace HandleKind

/-- Reads the byte of a kind. -/
def read : FileReader HandleKind := do
  let code ← u8
  match ofCode? code with
  | some kind => pure kind
  | none => throw (.invalidHandleKind code)

end HandleKind

namespace Constant

/-- The constant of a text with the given body. -/
def ofBody (body : Bytes) : Except Malformed Constant :=
  match Modified.decodeUnits body with
  | .error fault => .error (.invalidText fault)
  | .ok us =>
    match Utf16.ofUnits? us with
    | some text => .ok (.utf8 text)
    | none => .ok (.rawUtf8 body)

/-- Reads what belongs to a tag. -/
def readTagged (tag : UInt8) : FileReader Constant := do
  match tag with
  | 1 => do
    let length ← u16
    let body ← block length.toNat
    ofBody body
  | 3 => pure (.integer (← u32).toInt32)
  | 4 => pure (.float ⟨← u32⟩)
  | 5 => pure (.long (← u64).toInt64)
  | 6 => pure (.double ⟨← u64⟩)
  | 7 => pure (.className (← u16))
  | 8 => pure (.string (← u16))
  | 9 => pure (.fieldRef (← u16) (← u16))
  | 10 => pure (.methodRef (← u16) (← u16) false)
  | 11 => pure (.methodRef (← u16) (← u16) true)
  | 12 => pure (.nameAndType (← u16) (← u16))
  | 15 => pure (.methodHandle (← HandleKind.read) (← u16))
  | 16 => pure (.methodType (← u16))
  | 17 => pure (.dynamic (← u16) (← u16))
  | 18 => pure (.invokeDynamic (← u16) (← u16))
  | 19 => pure (.moduleName (← u16))
  | 20 => pure (.packageName (← u16))
  | tag => throw (.invalidConstantTag tag)

/-- Reads a tag and what belongs to it. -/
def read : FileReader Constant := do
  readTagged (← u8)

end Constant

/-- Reads constants behind those of `pool` until `slots` more slots are taken. -/
def ConstantPool.readAfter (pool : ConstantPool) (slots : Nat) (input : Bytes) :
    Except Malformed (ConstantPool × Bytes) :=
  match slots with
  | 0 => .ok (pool, input)
  | slots + 1 =>
    match Constant.read input with
    | .error e => .error e
    | .ok (c, rest) =>
      match c.width, slots with
      | 2, 0 => .error .overrunningConstant
      | 2, slots + 1 => ConstantPool.readAfter (pool.push c) slots rest
      | _, slots => ConstantPool.readAfter (pool.push c) slots rest
termination_by slots

/-- Reads the pool. Its count is the number of the slot behind the last one. -/
def ConstantPool.read : FileReader ConstantPool := do
  let count ← u16
  ConstantPool.readAfter (Slots.startingAt 1) (count.toNat - 1)

/-- Reads a name, a length and a body. -/
def Attribute.read : FileReader Attribute := do
  let name ← u16
  let length ← u32
  let info ← block length.toNat
  pure ⟨name, info⟩

/-- Reads a field or a method. -/
def Member.read (h : Holder) : FileReader (Member h) := do
  let access ← Access.read h
  let name ← u16
  let descriptor ← u16
  let attributes ← counted Attribute.read
  pure ⟨access, name, descriptor, attributes⟩

namespace ClassFile

/-- Reads the four bytes that every class file starts with. -/
def readMagic : FileReader Unit := do
  let found ← block 4
  if found ≠ magic then throw (.badMagic found)

/-- Reads the version, which has to be a supported one. -/
def readVersion : FileReader Version := do
  let version ← Version.read
  if version.isSupported then pure version else throw (.unsupportedVersion version)

/-- Reads a class file from the front. -/
def read : FileReader ClassFile := do
  readMagic
  let version ← readVersion
  let constants ← ConstantPool.read
  let access ← Access.read .classes
  let thisClass ← u16
  let superClass ← u16
  let interfaces ← counted u16
  let fields ← counted (Member.read .fields)
  let methods ← counted (Member.read .methods)
  let attributes ← counted Attribute.read
  pure { version, constants, access, thisClass, superClass, interfaces, fields, methods,
         attributes }

/-- The class file that the bytes hold. -/
def ofBytes (input : Bytes) : Except Malformed ClassFile := do
  let (file, rest) ← read.run input
  if rest.isEmpty then pure file else throw (.trailingBytes rest.length)

end ClassFile

end Crosswalk
