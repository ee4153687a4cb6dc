import Crosswalk.ClassFile.Reading
import Crosswalk.ClassTree.Basic
import Crosswalk.ClassTree.Scope

/-!
# From class files to class trees

`ClassTree.ofFile` resolves every slot of a class file, and `decode` goes all the way from bytes.
The attributes that name classes are picked apart; the others stay as they are.
-/

namespace Crosswalk

/-! ## The pool -/

namespace Entry

/-- The member that a slot of a class and a slot of a name and a type make up. The latter is looked
up first. -/
def member (pool : ConstantPool) (owner pair : Index) : Except Malformed MemberRef := do
  let (name, descriptor) ← pool.nameAndType pair
  let owner ← pool.className owner
  pure ⟨owner, name, descriptor⟩

/-- The literal whose text is in a slot. -/
def literal (pool : ConstantPool) (text : Index) : Except Malformed Entry := do
  match ← pool.constant text with
  | .rawUtf8 _ => pure (.rawString text)
  | _ => do pure (.string (← pool.utf8 text))

/-- A handle on the member in a slot. -/
def handle (pool : ConstantPool) (kind : HandleKind) (slot : Index) : Except Malformed Entry := do
  match ← pool.constant slot with
  | .fieldRef _ _ | .methodRef _ _ _ => pure (.methodHandle kind slot)
  | other => throw (.notMember other)

/-- A constant with the texts that its slots lead to. -/
def ofConstant (pool : ConstantPool) : Constant → Except Malformed Entry
  | .utf8 text => pure (.utf8 text)
  | .rawUtf8 body => pure (.rawUtf8 body)
  | .integer n => pure (.integer n)
  | .float x => pure (.float x)
  | .long n => pure (.long n)
  | .double x => pure (.double x)
  | .className name => do pure (.className (← pool.utf8 name))
  | .string text => literal pool text
  | .fieldRef owner pair => do pure (.fieldRef (← member pool owner pair))
  | .methodRef owner pair ofInterface => do
    pure (.methodRef (← member pool owner pair) ofInterface)
  | .nameAndType name descriptor => do
    pure (.nameAndType (← pool.utf8 name) (← pool.utf8 descriptor))
  | .methodHandle kind slot => handle pool kind slot
  | .methodType descriptor => do pure (.methodType (← pool.utf8 descriptor))
  | .dynamic bootstrap pair => do
    let (name, descriptor) ← pool.nameAndType pair
    pure (.dynamic bootstrap name descriptor)
  | .invokeDynamic bootstrap pair => do
    let (name, descriptor) ← pool.nameAndType pair
    pure (.invokeDynamic bootstrap name descriptor)
  | .moduleName name => do pure (.moduleName (← pool.utf8 name))
  | .packageName name => do pure (.packageName (← pool.utf8 name))

end Entry

/-- The entries of a pool, each in the slot of its constant. -/
def EntryPool.ofPool (pool : ConstantPool) : Except Malformed EntryPool := do
  let entries ← pool.toList.mapM fun item => Entry.ofConstant pool item.2
  pure (.ofList entries)

/-! ## Annotations -/

/-- Whether a tag announces a number or a text in a slot. -/
def ElementValue.isConstTag (tag : UInt8) : Bool :=
  "BCDFIJSZs".toList.any fun c => c.toNat = tag.toNat

/-- Reads a name and a value. -/
def Element.read (s : Scope) (value : Reader Malformed ElementValue) :
    Reader Malformed Element := do
  let name ← s.utf8
  pure (.mk name (← value))

/-- Reads a type and the elements, given how to read a value. -/
def Annotation.read (s : Scope) (value : Reader Malformed ElementValue) :
    Reader Malformed Annotation := do
  let type ← s.utf8
  pure (.mk type (← s.counted (Element.read s value)))

/-- Reads a value with at most `depth` values around each other. Each of them takes a byte of its
own, so where no depth is left there is no byte left either. -/
def ElementValue.read (s : Scope) : Nat → Reader Malformed ElementValue
  | 0 => throw s.short
  | depth + 1 => do
    let tag ← s.u8
    if isConstTag tag then
      pure (.const tag (← s.u16))
    else if tag = 101 then
      pure (.enum (← s.utf8) (← s.utf8))
    else if tag = 99 then
      pure (.classInfo (← s.utf8))
    else if tag = 64 then
      pure (.nested (← Annotation.read s (ElementValue.read s depth)))
    else if tag = 91 then
      pure (.array (← s.counted (ElementValue.read s depth)))
    else
      throw (.invalidElementTag tag)

/-- Reads the annotations of an attribute. -/
def Annotation.readAll (s : Scope) (info : Bytes) : Except Malformed (List Annotation) :=
  let one := Annotation.read s (ElementValue.read s info.length)
  s.whole (s.counted one) info

/-! ## Method bodies -/

/-- Reads a type. -/
def VerificationType.read (s : Scope) : Reader Malformed (VerificationType String) := do
  match ← s.u8 with
  | 0 => pure .top
  | 1 => pure .integer
  | 2 => pure .float
  | 3 => pure .double
  | 4 => pure .long
  | 5 => pure .null
  | 6 => pure .uninitializedThis
  | 7 => pure (.object (← s.className))
  | 8 => pure (.uninitialized (← s.u16))
  | tag => throw (.invalidVerificationTag tag)

/-- Reads what belongs to the tag of a frame. -/
def Frame.readTagged (s : Scope) (tag : UInt8) : Reader Malformed (Frame String) := do
  if tag < 64 then
    pure (.same tag.toUInt16)
  else if tag < 128 then
    pure (.oneItem (tag.toUInt16 - 64) (← VerificationType.read s))
  else if tag < 247 then
    throw (.reservedFrameTag tag)
  else
    let delta ← s.u16
    if tag = 247 then
      pure (.oneItem delta (← VerificationType.read s))
    else if tag < 251 then
      pure (.chop delta (251 - tag))
    else if tag = 251 then
      pure (.same delta)
    else if tag < 255 then
      pure (.append delta (← Reader.times (tag.toNat - 251) (VerificationType.read s)))
    else do
      let locals ← s.counted (VerificationType.read s)
      let stack ← s.counted (VerificationType.read s)
      pure (.full delta locals stack)

/-- Reads a frame. -/
def Frame.read (s : Scope) : Reader Malformed (Frame String) := do
  Frame.readTagged s (← s.u8)

/-- Reads the range, the name, the type and the number of a local variable. -/
def LocalVariable.read (s : Scope) : Reader Malformed LocalVariable := do
  let start ← s.u16
  let length ← s.u16
  let name ← s.utf8
  let type ← s.utf8
  let index ← s.u16
  pure { start, length, name, type, index }

/-- Reads the range of a handler, the place it starts at and the slot of what it catches. -/
def Handler.read (s : Scope) : Reader Malformed Handler := do
  let start ← s.u16
  let stop ← s.u16
  let entry ← s.u16
  let caught ← s.u16
  pure { start, stop, entry, caught }

/-- Reads a name, a length and a body. -/
def OpaqueAttribute.read (s : Scope) : Reader Malformed OpaqueAttribute := do
  let name ← s.utf8
  let length ← s.u32
  let info ← s.block length.toNat
  pure { name, info }

namespace Code

/-- What an attribute of a method body holds. -/
inductive Part
  | frames (frames : List (Frame String))
  | locals (vs : List LocalVariable)
  | localTypes (vs : List LocalVariable)
  | other (a : OpaqueAttribute)

namespace Part

/-- Picks an attribute of a method body apart. -/
def ofAttribute (pool : ConstantPool) (a : OpaqueAttribute) : Except Malformed Part := do
  let s : Scope := ⟨pool, a.name⟩
  if a.name = framesName then
    pure (frames (← s.whole (s.counted (Frame.read s)) a.info))
  else if a.name = localsName then
    pure (locals (← s.whole (s.counted (LocalVariable.read s)) a.info))
  else if a.name = localTypesName then
    pure (localTypes (← s.whole (s.counted (LocalVariable.read s)) a.info))
  else
    pure (other a)

/-- Reads an attribute of a method body and picks it apart. -/
def read (s : Scope) : Reader Malformed Part := do
  let a ← OpaqueAttribute.read s
  ofAttribute s.pool a

/-- The frames that a part holds. -/
def frames? : Part → Option (List (Frame String))
  | frames fs => some fs
  | _ => none

/-- The local variables that a part holds by descriptor. -/
def localList : Part → List LocalVariable
  | locals vs => vs
  | _ => []

/-- The local variables that a part holds by signature. -/
def localTypeList : Part → List LocalVariable
  | localTypes vs => vs
  | _ => []

/-- The attribute that a part is, if it is not picked apart. -/
def other? : Part → Option OpaqueAttribute
  | other a => some a
  | _ => none

end Part

/-- Reads the body of a method to its end. Of several attributes with frames the last one counts,
and of several ones with local variables all of them do. -/
def read (s : Scope) : Reader Malformed Code := do
  let maxStack ← s.u16
  let maxLocals ← s.u16
  let length ← s.u32
  let bytecode ← s.block length.toNat
  let handlers ← s.counted (Handler.read s)
  let parts ← s.counted (Part.read s)
  pure
    { maxStack, maxLocals, bytecode, handlers
      frames := (parts.filterMap Part.frames?).getLast?
      locals := parts.flatMap Part.localList
      localTypes := parts.flatMap Part.localTypeList
      attributes := parts.filterMap Part.other? }

/-- The body of a method from its attribute. -/
def ofInfo (pool : ConstantPool) (info : Bytes) : Except Malformed Code :=
  let s : Scope := ⟨pool, attributeName⟩
  s.whole (read s) info

end Code

/-! ## Attributes of classes and members -/

/-- An attribute with its name. -/
def OpaqueAttribute.ofAttribute (pool : ConstantPool) (a : Attribute) :
    Except Malformed OpaqueAttribute := do
  pure ⟨← pool.utf8 a.name, a.info⟩

namespace Metadata

/-- What an attribute of a class or a member holds. -/
inductive Part
  | signature (s : String)
  | visible (annotations : List Annotation)
  | invisible (annotations : List Annotation)
  | other (a : OpaqueAttribute)

namespace Part

/-- Picks an attribute of a class or a member apart. -/
def ofAttribute (pool : ConstantPool) (a : OpaqueAttribute) : Except Malformed Part := do
  let s : Scope := ⟨pool, a.name⟩
  if a.name = signatureName then
    pure (signature (← s.whole s.utf8 a.info))
  else if a.name = visibleName then
    pure (visible (← Annotation.readAll s a.info))
  else if a.name = invisibleName then
    pure (invisible (← Annotation.readAll s a.info))
  else
    pure (other a)

/-- The signature that a part holds. -/
def signature? : Part → Option String
  | signature s => some s
  | _ => none

/-- The annotations kept for the runtime that a part holds. -/
def visibleList : Part → List Annotation
  | visible annotations => annotations
  | _ => []

/-- The annotations dropped at runtime that a part holds. -/
def invisibleList : Part → List Annotation
  | invisible annotations => annotations
  | _ => []

/-- The attribute that a part is, if it is not picked apart. -/
def other? : Part → Option OpaqueAttribute
  | other a => some a
  | _ => none

end Part

/-- Metadata from their parts in order. The last signature counts, and all annotations do. -/
def ofParts (parts : List Part) : Metadata where
  signature := (parts.filterMap Part.signature?).getLast?
  visible := parts.flatMap Part.visibleList
  invisible := parts.flatMap Part.invisibleList
  attributes := parts.filterMap Part.other?

/-- The metadata of a class or a field from its attributes in order. -/
def ofAttributes (pool : ConstantPool) (attributes : List Attribute) :
    Except Malformed Metadata := do
  let parts ← attributes.mapM fun a => do
    Part.ofAttribute pool (← OpaqueAttribute.ofAttribute pool a)
  pure (ofParts parts)

end Metadata

namespace MethodTree

/-- What an attribute of a method holds: metadata as for a field, or a body. -/
abbrev Part := Metadata.Part ⊕ Code

/-- Picks an attribute of a method apart. -/
def readPart (pool : ConstantPool) (a : Attribute) : Except Malformed Part := do
  let a ← OpaqueAttribute.ofAttribute pool a
  if a.name = Code.attributeName then
    pure (.inr (← Code.ofInfo pool a.info))
  else
    pure (.inl (← Metadata.Part.ofAttribute pool a))

/-- The metadata and the body of a method from its attributes in order. The last body counts. -/
def ofAttributes (pool : ConstantPool) (attributes : List Attribute) :
    Except Malformed (Metadata × Option Code) := do
  let parts ← attributes.mapM (readPart pool)
  pure (.ofParts (parts.filterMap Sum.getLeft?), (parts.filterMap Sum.getRight?).getLast?)

end MethodTree

/-! ## Members and classes -/

/-- A field with its names. Its attributes are resolved before its name and descriptor. -/
def FieldTree.ofMember (pool : ConstantPool) (m : Member .fields) : Except Malformed FieldTree := do
  let metadata ← Metadata.ofAttributes pool m.attributes
  let name ← pool.utf8 m.name
  let descriptor ← pool.utf8 m.descriptor
  pure { access := m.access, name, descriptor, metadata }

/-- A method with its names. Its attributes are resolved before its name and descriptor. -/
def MethodTree.ofMember (pool : ConstantPool) (m : Member .methods) :
    Except Malformed MethodTree := do
  let (metadata, code) ← MethodTree.ofAttributes pool m.attributes
  let name ← pool.utf8 m.name
  let descriptor ← pool.utf8 m.descriptor
  pure { access := m.access, name, descriptor, metadata, code }

/-- A class with its names. The pool is resolved first and the name of the class last. -/
def ClassTree.ofFile (file : ClassFile) : Except Malformed ClassTree := do
  let pool := file.constants
  let constants ← EntryPool.ofPool pool
  let superName ← if file.superClass = 0 then pure none else some <$> pool.className file.superClass
  let interfaces ← file.interfaces.mapM pool.className
  let fields ← file.fields.mapM (FieldTree.ofMember pool)
  let methods ← file.methods.mapM (MethodTree.ofMember pool)
  let metadata ← Metadata.ofAttributes pool file.attributes
  let name ← pool.className file.thisClass
  pure { version := file.version, access := file.access, name, superName, interfaces, fields,
         methods, metadata, constants }

/-- The class that the bytes hold. -/
def decode (input : Bytes) : Except Malformed ClassTree := do
  ClassTree.ofFile (← ClassFile.ofBytes input)

end Crosswalk
