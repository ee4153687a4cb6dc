import Crosswalk.ClassTree.Basic
import Crosswalk.Renaming.Basic

/-!
# Renaming a class tree

`ClassTree.rename` gives a class tree its new names: of the class and its supertypes, of its
members, and wherever the pool, the method bodies, the signatures and the annotations mention a
class or a member. Literals stay as they are, and so does every name that nobody can ask for
without an owner, such as that in an entry of a name and a type.
-/

namespace Crosswalk

/-- An entry with its new names. -/
def Entry.rename (r : Renaming) : Entry → Entry
  | .className name => .className (r.classConstant name)
  | .fieldRef m => .fieldRef (r.member m (r.field m))
  | .methodRef m ofInterface => .methodRef (r.member m (r.method m)) ofInterface
  | .nameAndType name descriptor => .nameAndType name (r.descriptor descriptor)
  | .methodType descriptor => .methodType (r.descriptor descriptor)
  | .dynamic bootstrap name descriptor => .dynamic bootstrap name (r.descriptor descriptor)
  | .invokeDynamic bootstrap name descriptor =>
    .invokeDynamic bootstrap name (r.descriptor descriptor)
  | entry => entry

/-- An entry takes up as many slots as before. -/
@[simp] theorem Entry.width_rename (r : Renaming) (entry : Entry) :
    (entry.rename r).width = entry.width := by
  cases entry <;> rfl

/-- A local variable with its type in its new form. -/
def LocalVariable.mapType (f : String → String) (v : LocalVariable) : LocalVariable :=
  { v with type := f v.type }

/-- A method body with its new names. -/
def Code.rename (r : Renaming) (code : Code) : Code :=
  { code with
    frames := code.frames.map fun frames => frames.map fun frame => frame.map r.classConstant
    locals := code.locals.map fun v => v.mapType r.descriptor
    localTypes := code.localTypes.map fun v => v.mapType r.signature }

/-- Metadata with their new names. -/
def Metadata.rename (r : Renaming) (m : Metadata) : Metadata :=
  { m with
    signature := m.signature.map r.signature
    visible := m.visible.map fun a => a.map r.descriptor
    invisible := m.invisible.map fun a => a.map r.descriptor }

/-- A field of the given class with its new names. -/
def FieldTree.rename (r : Renaming) (owner : String) (f : FieldTree) : FieldTree :=
  { f with
    name := r.field ⟨owner, f.name, f.descriptor⟩
    descriptor := r.descriptor f.descriptor
    metadata := f.metadata.rename r }

/-- A method of the given class with its new names. -/
def MethodTree.rename (r : Renaming) (owner : String) (m : MethodTree) : MethodTree :=
  { m with
    name := r.method ⟨owner, m.name, m.descriptor⟩
    descriptor := r.descriptor m.descriptor
    metadata := m.metadata.rename r
    code := m.code.map fun code => code.rename r }

/-- A class with its new names. Its members are asked for under its old name. -/
def ClassTree.rename (r : Renaming) (c : ClassTree) : ClassTree :=
  { c with
    name := r.type c.name
    superName := c.superName.map r.type
    interfaces := c.interfaces.map r.type
    fields := c.fields.map fun f => f.rename r c.name
    methods := c.methods.map fun m => m.rename r c.name
    metadata := c.metadata.rename r
    constants := c.constants.map (·.rename r) (Entry.width_rename r) }

/-! ## Small facts -/

/-- A class gets the name of its type. -/
@[simp] theorem ClassTree.name_rename (r : Renaming) (c : ClassTree) :
    (c.rename r).name = r.type c.name := rfl

end Crosswalk
