import Crosswalk.ClassFile.Malformed

/-!
# Looking up constants

A pool answers by slot. A slot where no constant starts, or one with a constant of another kind
than asked for, is a fault.
-/

namespace Crosswalk

/-- The constants of a class file by slot. -/
abbrev ConstantPool := Slots Constant

namespace ConstantPool

/-- The constant that starts at a slot. -/
def constant (pool : ConstantPool) (i : Index) : Except Malformed Constant :=
  match pool.find? i.toNat with
  | some c => .ok c
  | none => .error (.invalidIndex i)

/-- The text in a slot. -/
def utf8 (pool : ConstantPool) (i : Index) : Except Malformed String := do
  match ← pool.constant i with
  | .utf8 text => pure text
  | .rawUtf8 _ => throw (.invalidUtf16 i)
  | other => throw (.notUtf8 i other)

/-- The name of the class in a slot. -/
def className (pool : ConstantPool) (i : Index) : Except Malformed String := do
  match ← pool.constant i with
  | .className name => pool.utf8 name
  | other => throw (.notClass i other)

/-- The name and the descriptor in a slot. -/
def nameAndType (pool : ConstantPool) (i : Index) : Except Malformed (String × String) := do
  match ← pool.constant i with
  | .nameAndType name descriptor => do
    let name ← pool.utf8 name
    let descriptor ← pool.utf8 descriptor
    pure (name, descriptor)
  | other => throw (.notNameAndType i other)

end ConstantPool

end Crosswalk
