import Std.Data.HashMap
import Crosswalk.Names.Nested
import Crosswalk.Renaming.Renamer

/-!
# Tables of names

A table of new names for classes, and for members by owner, name and descriptor. A nested class
without a name of its own goes with the class around it. A member that its owner has no name for is
looked up among the supertypes, the nearest ones first; the table knows the supertypes of each
class it has been shown.
-/

namespace Crosswalk

/-- New names, and the direct supertypes of classes, all under their old names. -/
structure NameTable where
  classes : Std.HashMap String String
  fields : Std.HashMap MemberRef String
  methods : Std.HashMap MemberRef String
  supertypes : Std.HashMap String (List String)

namespace NameTable

/-- A table without names. -/
def empty : NameTable :=
  ⟨∅, ∅, ∅, ∅⟩

instance : Inhabited NameTable := ⟨empty⟩

/-! ## Filling -/

/-- Gives a class a new name. -/
def insertClass (t : NameTable) (old new : String) : NameTable :=
  { t with classes := t.classes.insert old new }

/-- Gives a field a new name. -/
def insertField (t : NameTable) (field : MemberRef) (new : String) : NameTable :=
  { t with fields := t.fields.insert field new }

/-- Gives a method a new name. -/
def insertMethod (t : NameTable) (method : MemberRef) (new : String) : NameTable :=
  { t with methods := t.methods.insert method new }

/-- Says what the direct supertypes of a class are. -/
def insertSupertypes (t : NameTable) (name : String) (supertypes : List String) : NameTable :=
  { t with supertypes := t.supertypes.insert name supertypes }

/-- The number of classes with a new name. -/
def classCount (t : NameTable) : Nat :=
  t.classes.size

/-! ## Looking up -/

/-- The new name of a class. -/
def type (t : NameTable) (name : String) : String :=
  match t.classes[name]? with
  | some new => new
  | none =>
    match Nested.split? name with
    | some (outer, inner) =>
      match t.classes[outer]? with
      | some new => Nested.join new inner
      | none => name
    | none => name

/-- Erasing a class that is known leaves fewer of them. -/
theorem size_erase_lt {supertypes : Std.HashMap String (List String)} {name : String}
    {direct : List String} (h : supertypes[name]? = some direct) :
    (supertypes.erase name).size < supertypes.size := by
  have hmem : name ∈ supertypes := by
    rw [Std.HashMap.mem_iff_isSome_getElem?, h]; rfl
  have hsome : supertypes.isEmpty = false := by
    rw [Std.HashMap.isEmpty_eq_false_iff_exists_mem]
    exact ⟨name, hmem⟩
  rw [Std.HashMap.isEmpty_eq_size_eq_zero] at hsome
  rw [Std.HashMap.size_erase, if_pos hmem]
  simp at hsome
  omega

/-- The first answer among the classes of the queue, their supertypes, the supertypes of those, and
so on. Supertypes join the end of the queue, and no class brings its own ones twice. -/
def nearest (answer : String → Option String) (supertypes : Std.HashMap String (List String)) :
    List String → Option String
  | [] => none
  | name :: queue =>
    match answer name with
    | some new => some new
    | none =>
      match _known : supertypes[name]? with
      | some direct => nearest answer (supertypes.erase name) (queue ++ direct)
      | none => nearest answer supertypes queue
termination_by queue => (supertypes.size, queue.length)
decreasing_by
  · exact Prod.Lex.left _ _ (size_erase_lt _known)
  · exact Prod.Lex.right _ (Nat.lt_succ_self _)

/-- The new name of a member in a table of members, if it is listed for its owner or for one of the
supertypes of its owner. -/
def inherited? (t : NameTable) (members : Std.HashMap MemberRef String) (m : MemberRef) :
    Option String :=
  if members.isEmpty then none
  else
    nearest (fun owner => members[MemberRef.mk owner m.name m.descriptor]?) t.supertypes [m.owner]

/-- The new name of a field. -/
def field (t : NameTable) (m : MemberRef) : String :=
  (t.inherited? t.fields m).getD m.name

/-- The new name of a method. -/
def method (t : NameTable) (m : MemberRef) : String :=
  (t.inherited? t.methods m).getD m.name

instance : Renamer NameTable where
  learn t c := t.insertSupertypes c.name c.supertypes
  current t := ⟨t.type, t.field, t.method⟩

end NameTable

end Crosswalk
