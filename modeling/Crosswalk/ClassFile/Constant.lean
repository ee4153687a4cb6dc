import Crosswalk.Bytes
import Crosswalk.Decimal.Notation
import Crosswalk.Slots
import Crosswalk.Text.Modified
import Crosswalk.Text.Quoted

/-!
# Constants

A class file starts with a pool of constants that point at one another by slot. This module holds
the constants as they stand in the file, their bytes, and the text by which a message shows them.
-/

namespace Crosswalk

/-- A slot of the constant pool. Slot 0 is never taken and stands for "none". -/
abbrev Index := UInt16

/-- What a method handle does. -/
inductive HandleKind
  | getField
  | getStatic
  | putField
  | putStatic
  | invokeVirtual
  | invokeStatic
  | invokeSpecial
  | newInvokeSpecial
  | invokeInterface
  deriving DecidableEq, Repr, Inhabited

namespace HandleKind

/-- The byte that stands for a kind. -/
def code : HandleKind → UInt8
  | getField => 1
  | getStatic => 2
  | putField => 3
  | putStatic => 4
  | invokeVirtual => 5
  | invokeStatic => 6
  | invokeSpecial => 7
  | newInvokeSpecial => 8
  | invokeInterface => 9

/-- The kind that a byte stands for. -/
def ofCode? : UInt8 → Option HandleKind
  | 1 => some getField
  | 2 => some getStatic
  | 3 => some putField
  | 4 => some putStatic
  | 5 => some invokeVirtual
  | 6 => some invokeStatic
  | 7 => some invokeSpecial
  | 8 => some newInvokeSpecial
  | 9 => some invokeInterface
  | _ => none

/-- The code of a kind of handle stands for this kind. -/
@[simp] theorem ofCode?_code (k : HandleKind) : ofCode? k.code = some k := by
  cases k <;> rfl

/-- The name of a kind. -/
def name : HandleKind → String
  | getField => "GetField"
  | getStatic => "GetStatic"
  | putField => "PutField"
  | putStatic => "PutStatic"
  | invokeVirtual => "InvokeVirtual"
  | invokeStatic => "InvokeStatic"
  | invokeSpecial => "InvokeSpecial"
  | newInvokeSpecial => "NewInvokeSpecial"
  | invokeInterface => "InvokeInterface"

end HandleKind

/-- A constant as it stands in a class file. -/
inductive Constant
  | utf8 (text : String)
  /-- Modified UTF-8 that has a surrogate without a partner, as its bytes. -/
  | rawUtf8 (body : Bytes)
  | integer (n : Int32)
  | float (x : Binary32)
  | long (n : Int64)
  | double (x : Binary64)
  | className (name : Index)
  | string (text : Index)
  | fieldRef (owner nameAndType : Index)
  | methodRef (owner nameAndType : Index) (ofInterface : Bool)
  | nameAndType (name descriptor : Index)
  | methodHandle (kind : HandleKind) (member : Index)
  | methodType (descriptor : Index)
  | dynamic (bootstrap : UInt16) (nameAndType : Index)
  | invokeDynamic (bootstrap : UInt16) (nameAndType : Index)
  | moduleName (name : Index)
  | packageName (name : Index)
  deriving DecidableEq, Inhabited

namespace Constant

/-- Numbers of eight bytes take up two slots, every other constant one. -/
def width : Constant → Nat
  | long _ | double _ => 2
  | _ => 1

instance : Wide Constant := ⟨width⟩

/-! ## Bytes -/

/-- The body of a text behind its length, which has sixteen bits. -/
def bodyBytes (body : Bytes) : Bytes :=
  Bytes.count body.length ++ body

/-- The bytes of a constant: a tag, and what belongs to the tag. -/
def bytes : Constant → Bytes
  | utf8 text => 1 :: bodyBytes (Modified.encode text)
  | rawUtf8 body => 1 :: bodyBytes body
  | integer n => 3 :: Bytes.ofUInt32 n.toUInt32
  | float x => 4 :: Bytes.ofUInt32 x.bits
  | long n => 5 :: Bytes.ofUInt64 n.toUInt64
  | double x => 6 :: Bytes.ofUInt64 x.bits
  | className name => 7 :: Bytes.ofUInt16 name
  | string text => 8 :: Bytes.ofUInt16 text
  | fieldRef owner member => 9 :: (Bytes.ofUInt16 owner ++ Bytes.ofUInt16 member)
  | methodRef owner member ofInterface =>
    (if ofInterface then 11 else 10) :: (Bytes.ofUInt16 owner ++ Bytes.ofUInt16 member)
  | nameAndType name descriptor => 12 :: (Bytes.ofUInt16 name ++ Bytes.ofUInt16 descriptor)
  | methodHandle kind member => 15 :: kind.code :: Bytes.ofUInt16 member
  | methodType descriptor => 16 :: Bytes.ofUInt16 descriptor
  | dynamic bootstrap member => 17 :: (Bytes.ofUInt16 bootstrap ++ Bytes.ofUInt16 member)
  | invokeDynamic bootstrap member => 18 :: (Bytes.ofUInt16 bootstrap ++ Bytes.ofUInt16 member)
  | moduleName name => 19 :: Bytes.ofUInt16 name
  | packageName name => 20 :: Bytes.ofUInt16 name

/-! ## Text -/

/-- Parts between the given brackets, with commas. -/
def listed (opening closing : String) (parts : List String) : String :=
  opening ++ ", ".intercalate parts ++ closing

/-- A value behind the name of its form. -/
def applied (form : String) (parts : List String) : String :=
  form ++ listed "(" ")" parts

/-- Named values behind the name of their form. -/
def fields (form : String) (parts : List (String × String)) : String :=
  form ++ listed " \x7b " " \x7d" (parts.map fun part => part.1 ++ ": " ++ part.2)

/-- A slot of no particular kind. -/
def slotText (i : Index) : String :=
  applied "ConstantIndex" [toString i.toNat]

/-- A slot that should hold a text. -/
def utf8SlotText (i : Index) : String :=
  applied "Utf8ConstantIndex" [slotText i]

/-- A slot that should hold a class. -/
def classSlotText (i : Index) : String :=
  applied "ClassConstantIndex" [slotText i]

/-- A slot that should hold a name and a type. -/
def nameAndTypeSlotText (i : Index) : String :=
  applied "NameAndTypeConstantIndex" [slotText i]

/-- A constant as a message shows it. -/
def text : Constant → String
  | utf8 s => applied "Utf8" [Quoted.text s]
  | rawUtf8 body => applied "RawUtf8" [listed "[" "]" (body.map fun b => toString b.toNat)]
  | integer n => applied "Integer" [toString n.toInt]
  | float x => applied "Float" [x.text]
  | long n => applied "Long" [toString n.toInt]
  | double x => applied "Double" [x.text]
  | className name => applied "Class" [utf8SlotText name]
  | string s => applied "String" [utf8SlotText s]
  | fieldRef owner member => applied "FieldRef" [classSlotText owner, nameAndTypeSlotText member]
  | methodRef owner member ofInterface =>
    fields "MethodRef" [("class", classSlotText owner),
      ("name_and_type", nameAndTypeSlotText member), ("is_interface", toString ofInterface)]
  | nameAndType name descriptor =>
    fields "NameAndType" [("name", utf8SlotText name), ("descriptor", utf8SlotText descriptor)]
  | methodHandle kind member =>
    fields "MethodHandle" [("handle_kind", kind.name), ("member", slotText member)]
  | methodType descriptor => fields "MethodType" [("descriptor", utf8SlotText descriptor)]
  | dynamic bootstrap member =>
    fields "Dynamic" [("bootstrap_method", toString bootstrap.toNat),
      ("name_and_type", nameAndTypeSlotText member)]
  | invokeDynamic bootstrap member =>
    fields "InvokeDynamic" [("bootstrap_method", toString bootstrap.toNat),
      ("name_and_type", nameAndTypeSlotText member)]
  | moduleName name => applied "Module" [utf8SlotText name]
  | packageName name => applied "Package" [utf8SlotText name]

end Constant

end Crosswalk
