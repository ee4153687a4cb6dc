import Crosswalk.Names.ClassName
import Crosswalk.Renaming.NameTable

/-!
# Mappings

Mappings list the classes of a program with their fields and methods, each of which has one name in
every namespace. The descriptors of members are written with the names of the first namespace.

A resolver takes single class names into one namespace, from any other. `Mappings.table` gives
the table of names that leads from one namespace to another.
-/

namespace Crosswalk

/-- A field or a method with its names. -/
structure MemberMapping where
  descriptor : String
  names : List String
  deriving DecidableEq, Repr, Inhabited

/-- A class with its names and its members. -/
structure ClassMapping where
  names : List String
  fields : List MemberMapping
  methods : List MemberMapping
  deriving DecidableEq, Repr, Inhabited

/-- The class has a name in each of `count` namespaces, and so has each of its members. -/
structure ClassMapping.Complete (count : Nat) (c : ClassMapping) : Prop where
  names : c.names.length = count
  fields : ∀ m ∈ c.fields, m.names.length = count
  methods : ∀ m ∈ c.methods, m.names.length = count

instance (count : Nat) (c : ClassMapping) : Decidable (c.Complete count) :=
  decidable_of_iff (c.names.length = count ∧ (∀ m ∈ c.fields, m.names.length = count) ∧
    ∀ m ∈ c.methods, m.names.length = count)
    ⟨fun h => ⟨h.1, h.2.1, h.2.2⟩, fun h => ⟨h.1, h.2, h.3⟩⟩

/-- The namespaces, and the classes in the order in which they are listed. -/
@[ext]
structure Mappings where
  namespaces : List String
  classes : List ClassMapping
  complete : ∀ c ∈ classes, c.Complete namespaces.length := by decide
  deriving DecidableEq, Repr

instance : Inhabited Mappings := ⟨{ namespaces := [], classes := [] }⟩

/-- Gives the name of a class in one namespace for its name in another, if it can. -/
abbrev Resolver := String → String → Option String

/-- The name in a namespace. Mappings have one for each of their classes and members in each of
their namespaces (`Mappings.getElem?_names`), so it is always one that is listed. -/
def nameIn (space : Nat) (names : List String) : String :=
  names[space]?.getD ""

/-- A name that is there is the one that is looked up. -/
theorem getElem?_eq_nameIn {space : Nat} {names : List String} (h : space < names.length) :
    names[space]? = some (nameIn space names) := by
  rw [nameIn, List.getElem?_eq_getElem h, Option.getD_some]

/-- A namespace that the mappings do not have. -/
structure UnknownNamespace where
  name : String
  deriving DecidableEq, Repr

/-- The resolver where there is only one namespace. -/
def Resolver.single : Resolver := fun _ name => some (ClassName.normalize name).text

namespace Mappings

/-- The position of a namespace. -/
def space (m : Mappings) (name : String) : Except UnknownNamespace Nat :=
  match m.namespaces.idxOf? name with
  | some i => .ok i
  | none => .error ⟨name⟩

/-- The place of a namespace is one of those in the header. -/
theorem lt_of_space {m : Mappings} {name : String} {i : Nat} (h : m.space name = .ok i) :
    i < m.namespaces.length := by
  rw [space] at h
  split at h
  · next hi =>
    cases h
    exact (List.findIdx?_eq_some_iff_findIdx_eq.1 hi).1
  · cases h

/-- Every class and every member has a name in every namespace. -/
theorem getElem?_names {m : Mappings} {name : String} {i : Nat} (h : m.space name = .ok i)
    {c : ClassMapping} (hc : c ∈ m.classes) : c.names[i]? = some (nameIn i c.names) ∧
      ∀ member ∈ c.fields ++ c.methods, member.names[i]? = some (nameIn i member.names) := by
  have hcomplete := m.complete c hc
  have hi := lt_of_space h
  refine ⟨getElem?_eq_nameIn (hcomplete.names ▸ hi), fun member hmember => getElem?_eq_nameIn ?_⟩
  rcases List.mem_append.1 hmember with hfield | hmethod
  · exact hcomplete.fields member hfield ▸ hi
  · exact hcomplete.methods member hmethod ▸ hi

/-- The resolver into a namespace. The first class with the name counts. -/
def resolver (m : Mappings) (target : String) : Except UnknownNamespace Resolver := do
  let target ← m.space target
  pure fun source name =>
    match m.space source with
    | .error _ => none
    | .ok source =>
      let name := (ClassName.normalize name).text
      (m.classes.find? fun c => nameIn source c.names == name).map fun c => nameIn target c.names

/-- The names of the classes by their names in the first namespace. Of several classes with one
name the last one counts. -/
def fromFirst (m : Mappings) (space : Nat) : Std.HashMap String String :=
  m.classes.foldl (fun table c => table.insert (nameIn 0 c.names) (nameIn space c.names)) ∅

/-- A descriptor in other names, where there are any. -/
def descriptorIn (names : Std.HashMap String String) (descriptor : String) : String :=
  Descriptor.map (fun name => names.getD name name) descriptor

/-- A member of a class with its new name, in the form that tables list it in. `names` are those of
the classes in the old namespace. -/
def listing (names : Std.HashMap String String) (source target : Nat) (c : ClassMapping)
    (m : MemberMapping) : MemberRef × String :=
  (⟨nameIn source c.names, nameIn source m.names, descriptorIn names m.descriptor⟩,
    nameIn target m.names)

/-- Adds a class and its members to a table. -/
def addClass (names : Std.HashMap String String) (source target : Nat) (table : NameTable)
    (c : ClassMapping) : NameTable :=
  let table := table.insertClass (nameIn source c.names) (nameIn target c.names)
  let fields := c.fields.map (listing names source target c)
  let methods := c.methods.map (listing names source target c)
  let table := fields.foldl (fun table row => table.insertField row.1 row.2) table
  methods.foldl (fun table row => table.insertMethod row.1 row.2) table

/-- The table that leads from one namespace to another. -/
def table (m : Mappings) (source target : String) : Except UnknownNamespace NameTable := do
  let source ← m.space source
  let target ← m.space target
  pure (m.classes.foldl (addClass (m.fromFirst source) source target) .empty)

end Mappings

end Crosswalk
