import Crosswalk.ClassFile.Constant

/-!
# Annotations

An annotation has a type and named values; a value may be an annotation again, or an array of
values. `Annotation.map` changes the descriptors and leaves the shape alone.
-/

namespace Crosswalk

mutual

/-- An annotation: the descriptor of its type, and its elements. -/
inductive Annotation
  | mk (type : String) (elements : List Element)

/-- A named value of an annotation. -/
inductive Element
  | mk (name : String) (value : ElementValue)

/-- A value of an annotation. -/
inductive ElementValue
  /-- A number or a text in a slot of the pool. The tag is one of BCDFIJSZs. -/
  | const (tag : UInt8) (index : Index)
  | enum (descriptor name : String)
  /-- The descriptor of a class, or of no value at all. -/
  | classInfo (descriptor : String)
  | nested (value : Annotation)
  | array (values : List ElementValue)

end

instance : Inhabited ElementValue := ⟨.const 0 0⟩

instance : Inhabited Element := ⟨.mk "" default⟩

instance : Inhabited Annotation := ⟨.mk "" []⟩

/-- The descriptor of the type of an annotation. -/
def Annotation.type : Annotation → String
  | mk type _ => type

/-- The elements of an annotation in order. -/
def Annotation.elements : Annotation → List Element
  | mk _ elements => elements

mutual

/-- Changes every descriptor of an annotation. -/
def Annotation.map (f : String → String) : Annotation → Annotation
  | .mk type elements => .mk (f type) (Element.mapAll f elements)

/-- Changes every descriptor of each element. -/
def Element.mapAll (f : String → String) : List Element → List Element
  | [] => []
  | element :: rest => element.map f :: Element.mapAll f rest

/-- Changes every descriptor of an element. -/
def Element.map (f : String → String) : Element → Element
  | .mk name value => .mk name (value.map f)

/-- Changes every descriptor of a value. -/
def ElementValue.map (f : String → String) : ElementValue → ElementValue
  | .const tag index => .const tag index
  | .enum descriptor name => .enum (f descriptor) name
  | .classInfo descriptor => .classInfo (f descriptor)
  | .nested value => .nested (value.map f)
  | .array values => .array (ElementValue.mapAll f values)

/-- Changes every descriptor of each value. -/
def ElementValue.mapAll (f : String → String) : List ElementValue → List ElementValue
  | [] => []
  | value :: rest => value.map f :: ElementValue.mapAll f rest

end

/-- The type of an annotation is a descriptor like all others. -/
@[simp] theorem Annotation.type_map (f : String → String) (a : Annotation) :
    (a.map f).type = f a.type := by
  cases a; rfl

end Crosswalk
