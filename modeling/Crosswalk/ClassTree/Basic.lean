import Crosswalk.ClassFile.Access
import Crosswalk.ClassFile.Malformed
import Crosswalk.ClassTree.Annotation
import Crosswalk.ClassTree.Entry
import Crosswalk.ClassTree.Frame

/-!
# Class trees

A class with every slot resolved into names and descriptors, ready to be changed. Bytecode and the
attributes that are not picked apart keep their slots, which is why `ClassTree.constants` keeps
every entry in the slot it was read from. The names of the attributes that are picked apart stand
here too.
-/

namespace Crosswalk

/-- An attribute that is carried along as its bytes. -/
structure OpaqueAttribute where
  name : String
  info : Bytes
  deriving DecidableEq, Inhabited

/-- What to run when an exception is thrown in a range of the code. -/
structure Handler where
  start : UInt16
  stop : UInt16
  entry : UInt16
  /-- The slot of the class that is caught, or 0 for all of them. -/
  caught : Index
  deriving DecidableEq, Inhabited

/-- The name and type of a local variable in a range of the code. The type is a descriptor in one
of the two tables that hold local variables, and a signature in the other. -/
structure LocalVariable where
  start : UInt16
  length : UInt16
  name : String
  type : String
  index : UInt16
  deriving DecidableEq, Inhabited

/-- The body of a method. -/
structure Code where
  maxStack : UInt16
  maxLocals : UInt16
  bytecode : Bytes
  handlers : List Handler
  frames : Option (List (Frame String))
  locals : List LocalVariable
  localTypes : List LocalVariable
  attributes : List OpaqueAttribute
  deriving Inhabited

/-- What classes, fields and methods have in common. -/
structure Metadata where
  signature : Option String
  visible : List Annotation
  invisible : List Annotation
  attributes : List OpaqueAttribute
  deriving Inhabited

/-- A field of a class tree. -/
structure FieldTree where
  access : Access .fields
  name : String
  descriptor : String
  metadata : Metadata
  deriving Inhabited

/-- A method of a class tree. -/
structure MethodTree where
  access : Access .methods
  name : String
  descriptor : String
  metadata : Metadata
  code : Option Code
  deriving Inhabited

/-- A class with its names. -/
structure ClassTree where
  version : Version
  access : Access .classes
  name : String
  superName : Option String
  interfaces : List String
  fields : List FieldTree
  methods : List MethodTree
  metadata : Metadata
  constants : EntryPool
  deriving Inhabited

namespace Code

/-- The attribute that holds a method body. -/
def attributeName : String := "Code"

/-- The attribute of a method body that holds the frames. -/
def framesName : String := "StackMapTable"

/-- The attribute of a method body that holds the descriptors of local variables. -/
def localsName : String := "LocalVariableTable"

/-- The attribute of a method body that holds the signatures of local variables. -/
def localTypesName : String := "LocalVariableTypeTable"

end Code

namespace Metadata

/-- The attribute that holds a signature. -/
def signatureName : String := "Signature"

/-- The attribute that holds the annotations kept for the runtime. -/
def visibleName : String := "RuntimeVisibleAnnotations"

/-- The attribute that holds the annotations dropped at runtime. -/
def invisibleName : String := "RuntimeInvisibleAnnotations"

/-- Whether one of the annotations kept for the runtime has the given type. -/
def hasVisible (m : Metadata) (type : String) : Bool :=
  m.visible.any (·.type == type)

/-- Whether one of the annotations dropped at runtime has the given type. -/
def hasInvisible (m : Metadata) (type : String) : Bool :=
  m.invisible.any (·.type == type)

end Metadata

namespace ClassTree

/-- The direct supertypes: the super class, and the interfaces in order. -/
def supertypes (c : ClassTree) : List String :=
  c.superName.toList ++ c.interfaces

end ClassTree

end Crosswalk
