import Crosswalk.Mappings.Reading
import Crosswalk.Proofs.Mappings.Tables
import Crosswalk.Proofs.Names.Descriptors
import Crosswalk.Proofs.Names.Nesting

/-!
# Members as classes mention them

The rows of a table have the descriptors of members in the old names, as far as classes have a row
of their own. A class in the old names has got them by a table itself, and there a nested class
without a row follows the class around it. So a member that is asked for as classes mention it is
found if its descriptor mentions no class that only follows another one
(`Mappings.named_as_mentioned`), and may be missed otherwise (`Mappings.mentioned_in_vain`).
-/

namespace Crosswalk

namespace Mappings

/-! ## Spellings of descriptors -/

/-- The reference to a member as classes mention it, after the table `t` has given them the names of
a namespace. -/
def mention (t : NameTable) (source : Nat) (c : ClassMapping) (member : MemberMapping) :
    MemberRef :=
  ⟨nameIn source c.names, nameIn source member.names, Descriptor.map t.type member.descriptor⟩

/-- The name of a class does not follow from that of the class around it: the class has a row of its
own, or the one around it has none that changes its name. -/
def StandsAlone (m : Mappings) (space : Nat) (name : String) : Prop :=
  ∀ outer inner new, (m.fromFirst space)[name]? = none →
    Nested.split? name = some (outer, inner) → (m.fromFirst space)[outer]? = some new → new = outer

variable {m : Mappings} {first source target : String} {toSource table : NameTable} {i j : Nat}

/-- The first namespace is found in the first place. -/
theorem space_head (hfirst : m.namespaces.head? = some first) : m.space first = .ok 0 := by
  obtain ⟨rest, hrest⟩ := List.head?_eq_some_iff.1 hfirst
  rw [space, hrest, List.idxOf?_cons]
  simp

/-- A table from the first namespace gives a class the name that its row says, exactly if the name
does not follow from that of another class. -/
theorem type_eq_iff (h : Fills m 0 i toSource) (name : String) :
    toSource.type name = (m.fromFirst i).getD name name ↔ m.StandsAlone i name := by
  have hclasses : ∀ name, toSource.classes[name]? = (m.fromFirst i)[name]? := fun name =>
    (h.classes name).trans (getElem?_fromFirst m i name).symm
  rw [NameTable.type, hclasses, Std.HashMap.getD_eq_getD_getElem?, StandsAlone]
  cases hname : (m.fromFirst i)[name]? with
  | some new => simp
  | none =>
    cases hsplit : Nested.split? name with
    | none => simp
    | some parts =>
      obtain ⟨outer, inner⟩ := parts
      simp only [hclasses, Option.getD_none]
      have hname := (Nested.split?_eq_some_iff.1 hsplit).1
      cases houter : (m.fromFirst i)[outer]? with
      | none =>
        refine iff_of_true rfl ?_
        rintro _ _ new - ⟨⟩ hnew
        cases houter.symm.trans hnew
      | some new =>
        simp only [hname, Nested.join_eq_join_iff]
        refine ⟨?_, fun halone => halone outer inner new trivial rfl houter⟩
        rintro hsame _ _ new' - ⟨⟩ hnew
        cases houter.symm.trans hnew
        exact hsame

/-- A descriptor with one class in it asks for the name of that class only. -/
theorem map_of_names_eq_singleton {f : String → String} {descriptor name : String}
    (h : Descriptor.names descriptor = [name]) :
    Descriptor.map f descriptor = Descriptor.map (fun _ => f name) descriptor := by
  refine Descriptor.map_congr fun other hother => ?_
  rw [h, List.mem_singleton] at hother
  rw [hother]

/-- Where no class follows another one, classes mention a member as its row has it. -/
theorem mention_eq_listing (h : Fills m 0 i toSource) {c : ClassMapping} {member : MemberMapping}
    (halone : ∀ name ∈ Descriptor.names member.descriptor, m.StandsAlone i name) :
    mention toSource i c member = (listing (m.fromFirst i) i j c member).1 := by
  rw [mention, listing, descriptorIn]
  rw [Descriptor.map_congr fun name hname => (type_eq_iff h name).2 (halone name hname)]

/-! ## Looking members up -/

/-- The row of a member of a listed class is one of the rows. -/
theorem listing_mem_memberRows {names : Std.HashMap String String}
    {members : ClassMapping → List MemberMapping} {c : ClassMapping} (hc : c ∈ m.classes)
    {member : MemberMapping} (hmember : member ∈ members c) :
    listing names i j c member ∈ memberRows names i j members m.classes :=
  List.mem_flatMap.2 ⟨c, hc, List.mem_map_of_mem hmember⟩

/-- Of a member that is mentioned, the last row with just this mention gives the name. It is the row
of the member if no two rows are about the same member and no class of the descriptor follows
another one. -/
theorem inherited?_mention (hsource : Fills m 0 i toSource) (hsupertypes : table.supertypes = ∅)
    {filled : Std.HashMap MemberRef String} {members : ClassMapping → List MemberMapping}
    (hfilled : ∀ r, filled[r]? = lastFor? r (memberRows (m.fromFirst i) i j members m.classes))
    {c : ClassMapping} (hc : c ∈ m.classes) {member : MemberMapping}
    (hmember : member ∈ members c) :
    let rows := memberRows (m.fromFirst i) i j members m.classes
    let mentioned := mention toSource i c member
    table.inherited? filled mentioned = lastFor? mentioned rows ∧
      ((rows.map Prod.fst).Nodup →
        (∀ name ∈ Descriptor.names member.descriptor, m.StandsAlone i name) →
        table.inherited? filled mentioned = some (nameIn j member.names)) := by
  intro rows mentioned
  have hlookup : table.inherited? filled mentioned = lastFor? mentioned rows :=
    (inherited?_of_empty hsupertypes mentioned).trans (hfilled mentioned)
  refine ⟨hlookup, fun hkeys halone => ?_⟩
  have hkey : mentioned = (listing (m.fromFirst i) i j c member).1 :=
    mention_eq_listing hsource halone
  rw [hlookup, hkey]
  exact lastFor?_of_nodup hkeys (listing_mem_memberRows hc hmember)

/-- A member that is asked for as the classes of a namespace mention it is given the name that the
last row with just this mention says, and keeps its name if there is no such row. So it is given its
own new name if no two rows are about the same member and each class name of its descriptor has a
row of its own, or at least is not that of a class nested directly in one that is renamed. -/
theorem named_as_mentioned (hfirst : m.namespaces.head? = some first)
    (hi : m.space source = .ok i) (hj : m.space target = .ok j)
    (hsource : m.table first source = .ok toSource) (htable : m.table source target = .ok table)
    {c : ClassMapping} (hc : c ∈ m.classes) :
    let fields := memberRows (m.fromFirst i) i j ClassMapping.fields m.classes
    let methods := memberRows (m.fromFirst i) i j ClassMapping.methods m.classes
    (∀ f ∈ c.fields,
      table.field (mention toSource i c f) =
        (lastFor? (mention toSource i c f) fields).getD (nameIn i f.names) ∧
      ((fields.map Prod.fst).Nodup →
        (∀ name ∈ Descriptor.names f.descriptor, m.StandsAlone i name) →
        table.field (mention toSource i c f) = nameIn j f.names)) ∧
    (∀ f ∈ c.methods,
      table.method (mention toSource i c f) =
        (lastFor? (mention toSource i c f) methods).getD (nameIn i f.names) ∧
      ((methods.map Prod.fst).Nodup →
        (∀ name ∈ Descriptor.names f.descriptor, m.StandsAlone i name) →
        table.method (mention toSource i c f) = nameIn j f.names)) ∧
    ∀ name, toSource.type name = (m.fromFirst i).getD name name ↔ m.StandsAlone i name := by
  intro fields methods
  have hspelled := fills_of_table (space_head hfirst) hi hsource
  have hfills := fills_of_table hi hj htable
  refine ⟨fun f hf => ?_, fun f hf => ?_, type_eq_iff hspelled⟩
  · obtain ⟨hlookup, hown⟩ := inherited?_mention hspelled hfills.supertypes hfills.fields hc hf
    refine ⟨congrArg (Option.getD · _) hlookup, fun hkeys halone => ?_⟩
    rw [NameTable.field, hown hkeys halone, Option.getD_some]
  · obtain ⟨hlookup, hown⟩ := inherited?_mention hspelled hfills.supertypes hfills.methods hc hf
    refine ⟨congrArg (Option.getD · _) hlookup, fun hkeys halone => ?_⟩
    rw [NameTable.method, hown hkeys halone, Option.getD_some]

/-- A class with two methods. One takes the class itself, and one takes a class nested in it that
has no row. -/
def nesting : Mappings where
  namespaces := ["official", "intermediary", "runtime"]
  classes := [⟨["A", "I", "N"], [],
    [⟨"(LA;)V", ["a", "b", "c"]⟩, ⟨"(LA$1;)V", ["d", "e", "f"]⟩]⟩]

/-- A nested class is named with its outer one. -/
theorem names_nesting :
    Descriptor.names "(LA;)V" = ["A"] ∧ Descriptor.names "(LA$1;)V" = ["A$1"] := by
  decide +kernel

/-- The rows of the two methods. The nested class keeps its name in them. -/
theorem memberRows_nesting :
    memberRows (nesting.fromFirst 1) 1 2 ClassMapping.methods nesting.classes =
      [(⟨"I", "b", "(LI;)V"⟩, "c"), (⟨"I", "e", "(LA$1;)V"⟩, "f")] := by
  have hlisted : ∀ name, (nesting.fromFirst 1).getD name name =
      (lastFor? name (classRows 0 1 nesting.classes)).getD name := fun name => by
    rw [Std.HashMap.getD_eq_getD_getElem?, getElem?_fromFirst]
  have houter : descriptorIn (nesting.fromFirst 1) "(LA;)V" = "(LI;)V" := by
    rw [descriptorIn, map_of_names_eq_singleton names_nesting.1, hlisted]
    decide +kernel
  have hinner : descriptorIn (nesting.fromFirst 1) "(LA$1;)V" = "(LA$1;)V" := by
    rw [descriptorIn, map_of_names_eq_singleton names_nesting.2, hlisted]
    decide +kernel
  have hrows : memberRows (nesting.fromFirst 1) 1 2 ClassMapping.methods nesting.classes =
      [(⟨"I", "b", descriptorIn (nesting.fromFirst 1) "(LA;)V"⟩, "c"),
        (⟨"I", "e", descriptorIn (nesting.fromFirst 1) "(LA$1;)V"⟩, "f")] := rfl
  rw [hrows, houter, hinner]

/-- How classes mention the types of the two methods. -/
theorem map_type_nesting {t : NameTable} (h : nesting.table "official" "intermediary" = .ok t) :
    Descriptor.map t.type "(LA;)V" = "(LI;)V" ∧ Descriptor.map t.type "(LA$1;)V" = "(LI$1;)V" := by
  have hclasses := (fills_of_table (i := 0) (j := 1) rfl rfl h).classes
  rw [map_of_names_eq_singleton names_nesting.1, map_of_names_eq_singleton names_nesting.2]
  simp only [NameTable.type, hclasses]
  decide +kernel

/-- The method that takes a class with a row is given its new name. -/
theorem named_as_mentioned_listed : ∃ table,
    nesting.table "intermediary" "runtime" = .ok table ∧
    table.method ⟨"I", "b", "(LI;)V"⟩ = "c" := by
  obtain ⟨toSource, hsource⟩ : ∃ table, nesting.table "official" "intermediary" = .ok table :=
    ⟨_, table_eq_ok_iff.2 ⟨0, 1, rfl, rfl, rfl⟩⟩
  obtain ⟨table, htable⟩ : ∃ table, nesting.table "intermediary" "runtime" = .ok table :=
    ⟨_, table_eq_ok_iff.2 ⟨1, 2, rfl, rfl, rfl⟩⟩
  obtain ⟨-, hmethods, -⟩ := named_as_mentioned (i := 1) (j := 2) rfl rfl rfl hsource htable
    (List.mem_singleton.2 rfl : _ ∈ nesting.classes)
  have hkeys : ((memberRows (nesting.fromFirst 1) 1 2 ClassMapping.methods nesting.classes).map
      Prod.fst).Nodup := by
    rw [memberRows_nesting]
    decide
  have halone : ∀ name ∈ Descriptor.names "(LA;)V", nesting.StandsAlone 1 name := by
    rw [names_nesting.1]
    rintro _ (_ | ⟨_, ⟨⟩⟩) outer inner new hnone
    rw [getElem?_fromFirst, (show lastFor? "A" _ = some "I" by decide +kernel)] at hnone
    cases hnone
  have hfound := (hmethods ⟨"(LA;)V", ["a", "b", "c"]⟩ List.mem_cons_self).2 hkeys halone
  rw [mention, (map_type_nesting hsource).1] at hfound
  exact ⟨table, htable, hfound⟩

/-- The method that takes the nested class is missed as classes mention it, though all names and all
rows differ, and found by a descriptor that no class has. -/
theorem mentioned_in_vain : ∃ m toSource table,
    ofText ("tiny\t2\t0\tofficial\tintermediary\truntime\n" ++
      "c\tA\tI\tN\n\tm\t(LA;)V\ta\tb\tc\n\tm\t(LA$1;)V\td\te\tf\n") = .ok m ∧
    m.table "official" "intermediary" = .ok toSource ∧
    m.table "intermediary" "runtime" = .ok table ∧
    Descriptor.map toSource.type "(LA$1;)V" = "(LI$1;)V" ∧
    table.method ⟨"I", "e", "(LI$1;)V"⟩ = "e" ∧ table.method ⟨"I", "e", "(LA$1;)V"⟩ = "f" := by
  obtain ⟨toSource, hsource⟩ : ∃ table, nesting.table "official" "intermediary" = .ok table :=
    ⟨_, table_eq_ok_iff.2 ⟨0, 1, rfl, rfl, rfl⟩⟩
  obtain ⟨table, htable⟩ : ∃ table, nesting.table "intermediary" "runtime" = .ok table :=
    ⟨_, table_eq_ok_iff.2 ⟨1, 2, rfl, rfl, rfl⟩⟩
  have hfills := fills_of_table (i := 1) (j := 2) rfl rfl htable
  refine ⟨nesting, toSource, table, by decide +kernel, hsource, htable,
    (map_type_nesting hsource).2, ?_, ?_⟩ <;>
  · rw [NameTable.method, inherited?_of_empty hfills.supertypes, hfills.methods, memberRows_nesting]
    decide +kernel

end Mappings

end Crosswalk
