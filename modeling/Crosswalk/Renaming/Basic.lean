import Crosswalk.ClassTree.Entry
import Crosswalk.Names.Descriptor
import Crosswalk.Names.Signature

/-!
# Renamings

A renaming gives classes, fields and methods new names. Only names are asked for: descriptors,
signatures and class constants follow from the names of the classes in them. A member is asked for
by its old owner, name and descriptor.
-/

namespace Crosswalk

/-- New names for classes, fields and methods. -/
structure Renaming where
  type : String → String
  field : MemberRef → String
  method : MemberRef → String

namespace Renaming

/-- Every name stays as it is. -/
def identity : Renaming :=
  ⟨id, MemberRef.name, MemberRef.name⟩

instance : Inhabited Renaming := ⟨identity⟩

/-- The new form of a descriptor. -/
def descriptor (r : Renaming) (d : String) : String :=
  Descriptor.map r.type d

/-- The new form of a signature. -/
def signature (r : Renaming) (s : String) : String :=
  Signature.map r.type s

/-- The new form of the name in a class constant, which is a descriptor for an array. -/
def classConstant (r : Renaming) (name : String) : String :=
  Descriptor.mapConstant r.type name

/-- A member under its new name, with its owner and its descriptor in their new forms. -/
def member (r : Renaming) (m : MemberRef) (name : String) : MemberRef :=
  ⟨r.classConstant m.owner, name, r.descriptor m.descriptor⟩

end Renaming

end Crosswalk
