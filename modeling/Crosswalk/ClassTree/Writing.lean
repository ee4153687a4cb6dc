import Crosswalk.ClassFile.Basic
import Crosswalk.ClassTree.Basic
import Crosswalk.ClassTree.PoolBuilder

/-!
# From class trees to class files

`ClassTree.toFile` gives every name a slot again, and `encode` goes all the way to bytes. The body
of an attribute is put together before the name of the attribute gets its slot, and the attributes
of a member come before its name.
-/

namespace Crosswalk

open PoolBuilder (text className)

/-! ## Names of attributes -/

/-- An attribute with a slot for its name. -/
def OpaqueAttribute.toAttribute (a : OpaqueAttribute) : Build Attribute := do
  pure ⟨← text a.name, a.info⟩

/-- An attribute whose body names things itself. -/
def Attribute.build (name : String) (info : Build Bytes) : Build Attribute := do
  let info ← info
  pure ⟨← text name, info⟩

/-- The slot of a text, as bytes. -/
def textSlot (s : String) : Build Bytes := do
  pure (Bytes.ofUInt16 (← text s))

/-! ## Annotations -/

mutual

/-- The bytes of an annotation. -/
def Annotation.write : Annotation → Build Bytes
  | .mk type elements => do
    let type ← textSlot type
    let rest ← Element.writeAll elements
    pure (type ++ (Bytes.count elements.length ++ rest))

/-- The bytes of elements in a row. -/
def Element.writeAll : List Element → Build Bytes
  | [] => pure []
  | element :: rest => do
    let first ← element.write
    let rest ← Element.writeAll rest
    pure (first ++ rest)

/-- The bytes of an element. -/
def Element.write : Element → Build Bytes
  | .mk name value => do
    let name ← textSlot name
    let value ← value.write
    pure (name ++ value)

/-- The bytes of a value. -/
def ElementValue.write : ElementValue → Build Bytes
  | .const tag index => pure (tag :: Bytes.ofUInt16 index)
  | .enum descriptor name => do
    let descriptor ← textSlot descriptor
    let name ← textSlot name
    pure (101 :: (descriptor ++ name))
  | .classInfo descriptor => do pure (99 :: (← textSlot descriptor))
  | .nested value => do pure (64 :: (← value.write))
  | .array values => do
    let rest ← ElementValue.writeAll values
    pure (91 :: (Bytes.count values.length ++ rest))

/-- The bytes of values in a row. -/
def ElementValue.writeAll : List ElementValue → Build Bytes
  | [] => pure []
  | value :: rest => do
    let first ← value.write
    let rest ← ElementValue.writeAll rest
    pure (first ++ rest)

end

/-- The body of an attribute that holds annotations. -/
def Annotation.writeAll (annotations : List Annotation) : Build Bytes := do
  let written ← annotations.mapM Annotation.write
  pure (Bytes.count annotations.length ++ written.flatten)

/-! ## Method bodies -/

/-- The body of an attribute that holds frames. The classes of a frame get their slots before those
of the next one. -/
def Frame.writeAll (frames : List (Frame String)) : Build Bytes := do
  let frames ← frames.mapM fun frame => frame.mapM className
  pure (Bytes.counted (·.bytes) frames)

/-- The bytes of a local variable. -/
def LocalVariable.write (v : LocalVariable) : Build Bytes := do
  let name ← textSlot v.name
  let type ← textSlot v.type
  pure (Bytes.ofUInt16 v.start ++ (Bytes.ofUInt16 v.length ++ (name ++ (type ++
    Bytes.ofUInt16 v.index))))

/-- The body of an attribute that holds local variables. -/
def LocalVariable.writeAll (vs : List LocalVariable) : Build Bytes := do
  let written ← vs.mapM LocalVariable.write
  pure (Bytes.count vs.length ++ written.flatten)

/-- The bytes of a handler. -/
def Handler.bytes (h : Handler) : Bytes :=
  Bytes.ofUInt16 h.start ++ (Bytes.ofUInt16 h.stop ++ (Bytes.ofUInt16 h.entry ++
    Bytes.ofUInt16 h.caught))

/-- An attribute that is left out where there are no items. -/
def Attribute.buildUnlessEmpty {α : Type} (name : String) (write : List α → Build Bytes)
    (items : List α) : Build (List Attribute) := do
  if items.isEmpty then pure [] else pure [← Attribute.build name (write items)]

/-- An attribute that is left out where there is no value. -/
def Attribute.buildIfSome {α : Type} (name : String) (write : α → Build Bytes) :
    Option α → Build (List Attribute)
  | none => pure []
  | some a => do pure [← Attribute.build name (write a)]

namespace Code

/-- The attributes of a method body: frames, local variables, and the rest. -/
def toAttributes (code : Code) : Build (List Attribute) := do
  let frames ← Attribute.buildIfSome framesName Frame.writeAll code.frames
  let locals ← Attribute.buildUnlessEmpty localsName LocalVariable.writeAll code.locals
  let localTypes ← Attribute.buildUnlessEmpty localTypesName LocalVariable.writeAll code.localTypes
  let others ← code.attributes.mapM OpaqueAttribute.toAttribute
  pure (frames ++ (locals ++ (localTypes ++ others)))

/-- The body of the attribute that holds a method body. -/
def write (code : Code) : Build Bytes := do
  let attributes ← code.toAttributes
  pure (Bytes.ofUInt16 code.maxStack ++ (Bytes.ofUInt16 code.maxLocals ++
    (Bytes.ofUInt32 (UInt32.ofNat code.bytecode.length) ++ (code.bytecode ++
      (Bytes.counted Handler.bytes code.handlers ++
        Bytes.counted Attribute.bytes attributes)))))

end Code

/-! ## Classes and members -/

/-- The attributes of a class or a member: the signature, annotations, and the rest. -/
def Metadata.toAttributes (m : Metadata) : Build (List Attribute) := do
  let signature ← Attribute.buildIfSome signatureName textSlot m.signature
  let visible ← Attribute.buildUnlessEmpty visibleName Annotation.writeAll m.visible
  let invisible ← Attribute.buildUnlessEmpty invisibleName Annotation.writeAll m.invisible
  let others ← m.attributes.mapM OpaqueAttribute.toAttribute
  pure (signature ++ (visible ++ (invisible ++ others)))

/-- A field with slots for its names. -/
def FieldTree.toMember (f : FieldTree) : Build (Member .fields) := do
  let attributes ← f.metadata.toAttributes
  let name ← text f.name
  let descriptor ← text f.descriptor
  pure ⟨f.access, name, descriptor, attributes⟩

/-- A method with slots for its names. Its body comes before its other attributes. -/
def MethodTree.toMember (m : MethodTree) : Build (Member .methods) := do
  let body ← Attribute.buildIfSome Code.attributeName Code.write m.code
  let others ← m.metadata.toAttributes
  let name ← text m.name
  let descriptor ← text m.descriptor
  pure ⟨m.access, name, descriptor, body ++ others⟩

namespace ClassTree

/-- The slot of the super class, or 0 if there is none. -/
def superSlot : Option String → Build Index
  | none => pure 0
  | some name => className name

/-- Everything about a class but its pool, which is being built along the way. -/
def build (c : ClassTree) : Build (ConstantPool → ClassFile) := do
  PoolBuilder.seed c.constants
  let thisClass ← className c.name
  let superClass ← superSlot c.superName
  let interfaces ← c.interfaces.mapM className
  let fields ← c.fields.mapM FieldTree.toMember
  let methods ← c.methods.mapM MethodTree.toMember
  let attributes ← c.metadata.toAttributes
  pure fun constants =>
    { version := c.version, constants, access := c.access, thisClass, superClass, interfaces,
      fields, methods, attributes }

/-- The class file of a class tree. -/
def toFile (c : ClassTree) : Except Overflow ClassFile := do
  let (file, built) ← c.build.run .empty
  pure (file built.constants)

end ClassTree

/-- The bytes of a class tree. -/
def encode (c : ClassTree) : Except Overflow Bytes := do
  pure (← c.toFile).bytes

end Crosswalk
