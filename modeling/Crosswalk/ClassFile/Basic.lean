import Crosswalk.ClassFile.Access
import Crosswalk.ClassFile.Pool

/-!
# Class files

A class file as it is laid out on disk: everything that has a name points into the pool by slot.
`ClassFile.bytes` writes one; the module beside this one reads it.
-/

namespace Crosswalk

/-- A named stretch of bytes that belongs to a class, a member or a method body. -/
structure Attribute where
  name : Index
  info : Bytes
  deriving DecidableEq, Inhabited

/-- A field or a method. -/
structure Member (h : Holder) where
  access : Access h
  name : Index
  descriptor : Index
  attributes : List Attribute
  deriving DecidableEq, Inhabited

/-- A class file. -/
structure ClassFile where
  version : Version
  constants : ConstantPool
  access : Access .classes
  thisClass : Index
  /-- Slot 0 for a class without a super class. -/
  superClass : Index
  interfaces : List Index
  fields : List (Member .fields)
  methods : List (Member .methods)
  attributes : List Attribute

/-! ## Writing -/

/-- The name, the length and the body. -/
def Attribute.bytes (a : Attribute) : Bytes :=
  Bytes.ofUInt16 a.name ++ Bytes.ofUInt32 (UInt32.ofNat a.info.length) ++ a.info

/-- The flags, the name, the descriptor and the attributes. -/
def Member.bytes {h : Holder} (m : Member h) : Bytes :=
  Bytes.ofUInt16 m.access.bits ++ Bytes.ofUInt16 m.name ++ Bytes.ofUInt16 m.descriptor ++
    Bytes.counted Attribute.bytes m.attributes

namespace ClassFile

/-- The four bytes that every class file starts with. -/
def magic : Bytes := [0xCA, 0xFE, 0xBA, 0xBE]

/-- The pool behind the number of the slot that comes after its last one. -/
def poolBytes (pool : ConstantPool) : Bytes :=
  Bytes.count pool.next ++ pool.toList.flatMap fun item => item.2.bytes

/-- The bytes of a class file. -/
def bytes (f : ClassFile) : Bytes :=
  magic ++ (f.version.bytes ++ (poolBytes f.constants ++
    (Bytes.ofUInt16 f.access.bits ++ (Bytes.ofUInt16 f.thisClass ++
      (Bytes.ofUInt16 f.superClass ++ (Bytes.counted Bytes.ofUInt16 f.interfaces ++
        (Bytes.counted Member.bytes f.fields ++ (Bytes.counted Member.bytes f.methods ++
          Bytes.counted Attribute.bytes f.attributes))))))))

end ClassFile

end Crosswalk
