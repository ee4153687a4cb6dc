import Crosswalk.Proofs.Mappings.Members
import Crosswalk.Proofs.Mappings.Resolving

/-!
# Tables one after the other

Where names tell classes and members apart in every namespace (`Mappings.TellsApart`), the table
from one namespace to another takes each class and each member to its own name there, and so do two
tables by way of a third namespace (`Mappings.tables_compose`). The way there and back gives every
name back. What carries this is that descriptors go along: a table turns the descriptor of a member
in the old names into the one in the new names (`Mappings.map_key_descriptor`).
-/

namespace Crosswalk

/-- The reference to a member after its owner and its descriptor have got new names, too. -/
def NameTable.along (t : NameTable) (r : MemberRef) (name : String) : MemberRef :=
  ⟨t.type r.owner, name, Descriptor.map t.type r.descriptor⟩

namespace Mappings

/-! ## Names that tell classes and members apart -/

/-- A class goes by this name in a namespace. -/
def Lists (m : Mappings) (space : Nat) (name : String) : Prop :=
  ∃ c ∈ m.classes, nameIn space c.names = name

instance (m : Mappings) (space : Nat) (name : String) : Decidable (m.Lists space name) :=
  inferInstanceAs (Decidable (∃ c ∈ m.classes, nameIn space c.names = name))

/-- A class goes by this name that is not listed, nor is the one around it, in any namespace. -/
def Unrelated (m : Mappings) (name : String) : Prop :=
  ∀ i < m.namespaces.length, ¬m.Lists i name ∧
    ∀ parts ∈ Nested.split? name, ¬m.Lists i parts.1

instance (m : Mappings) (name : String) : Decidable (m.Unrelated name) :=
  inferInstanceAs (Decidable (∀ i < m.namespaces.length, ¬m.Lists i name ∧
    ∀ parts ∈ Nested.split? name, ¬m.Lists i parts.1))

/-- The name of a class in a namespace, by that in the first one. A class that is not listed has the
same name in all of them. -/
def nameFor (m : Mappings) (space : Nat) (name : String) : String :=
  (lastFor? name (classRows 0 space m.classes)).getD name

/-- The reference to a member of a class in the names of a namespace. -/
def key (m : Mappings) (space : Nat) (c : ClassMapping) (member : MemberMapping) : MemberRef :=
  ⟨nameIn space c.names, nameIn space member.names,
    Descriptor.map (m.nameFor space) member.descriptor⟩

/-- The references to all members of a kind in the names of a namespace. -/
def keys (m : Mappings) (space : Nat) (members : ClassMapping → List MemberMapping) :
    List MemberRef :=
  m.classes.flatMap fun c => (members c).map (m.key space c)

/-- In every namespace, no two classes have the same name, and no two fields or two methods have the
same owner, name and descriptor. Names of classes fit into descriptors, and descriptors mention
classes that are listed, or else have to do with no listed one. -/
structure TellsApart (m : Mappings) : Prop where
  classes : ∀ i < m.namespaces.length, (m.classes.map fun c => nameIn i c.names).Nodup
  closed : ∀ i < m.namespaces.length, ∀ c ∈ m.classes, ';' ∉ (nameIn i c.names).toList
  fields : ∀ i < m.namespaces.length, (m.keys i ClassMapping.fields).Nodup
  methods : ∀ i < m.namespaces.length, (m.keys i ClassMapping.methods).Nodup
  mentioned : ∀ c ∈ m.classes, ∀ member ∈ c.fields ++ c.methods,
    ∀ name ∈ Descriptor.names member.descriptor, m.Lists 0 name ∨ m.Unrelated name

variable {m : Mappings} {i j k : Nat} {t : NameTable} {name : String}

/-- A namespace of the header is found. -/
theorem exists_space (h : name ∈ m.namespaces) :
    ∃ i, m.space name = .ok i ∧ i < m.namespaces.length := by
  have hsome : (m.namespaces.idxOf? name).isSome := by simpa [List.isSome_idxOf?] using h
  obtain ⟨i, hi⟩ := Option.isSome_iff_exists.1 hsome
  have hspace : m.space name = .ok i := by rw [space, hi]
  exact ⟨i, hspace, lt_of_space hspace⟩

/-- Members are listed in tables by these references. -/
theorem descriptorIn_fromFirst (m : Mappings) (i : Nat) (descriptor : String) :
    descriptorIn (m.fromFirst i) descriptor = Descriptor.map (m.nameFor i) descriptor := by
  rw [descriptorIn]
  congr 1
  funext name
  rw [Std.HashMap.getD_eq_getD_getElem?, getElem?_fromFirst, nameFor]

/-- Under its key a member is listed with its other name. -/
theorem listing_eq (c : ClassMapping) (member : MemberMapping) :
    listing (m.fromFirst i) i j c member = (m.key i c member, nameIn j member.names) := by
  rw [listing, descriptorIn_fromFirst, key]

/-- The keys of the rows are those of the members. -/
theorem map_fst_memberRows (members : ClassMapping → List MemberMapping) :
    (memberRows (m.fromFirst i) i j members m.classes).map Prod.fst = m.keys i members := by
  simp only [memberRows, keys, List.map_flatMap, List.map_map]
  refine congrArg (List.flatMap · _) (funext fun c => List.map_congr_left fun member _ => ?_)
  exact congrArg Prod.fst (listing_eq c member)

/-! ## Classes -/

/-- The row of a listed class counts. -/
theorem lastFor?_classRows (hm : m.TellsApart) (hi : i < m.namespaces.length) {c : ClassMapping}
    (hc : c ∈ m.classes) :
    lastFor? (nameIn i c.names) (classRows i j m.classes) = some (nameIn j c.names) := by
  have hkeys : ((classRows i j m.classes).map Prod.fst).Nodup := by
    simpa [classRows, Function.comp_def] using hm.classes i hi
  have hrow : (nameIn i c.names, nameIn j c.names) ∈ classRows i j m.classes :=
    List.mem_map_of_mem hc
  exact lastFor?_of_nodup hkeys hrow

/-- A class that is not listed has no row. -/
theorem lastFor?_classRows_eq_none (h : ¬m.Lists i name) :
    lastFor? name (classRows i j m.classes) = none := by
  refine lastFor?_eq_none fun row hrow hname => h ?_
  obtain ⟨c, hc, rfl⟩ := List.mem_map.1 hrow
  exact ⟨c, hc, hname⟩

/-- A class that is listed gets its other name. -/
theorem type_of_listed (hm : m.TellsApart) (hi : i < m.namespaces.length) (h : Fills m i j t)
    {c : ClassMapping} (hc : c ∈ m.classes) : t.type (nameIn i c.names) = nameIn j c.names :=
  type_of_classes ((h.classes _).trans (lastFor?_classRows hm hi hc))

/-- A class that has nothing to do with the lines keeps its name. -/
theorem type_of_unrelated (hi : i < m.namespaces.length) (h : Fills m i j t)
    (hname : m.Unrelated name) : t.type name = name := by
  obtain ⟨hself, haround⟩ := hname i hi
  rw [NameTable.type, h.classes, lastFor?_classRows_eq_none hself]
  cases hsplit : Nested.split? name with
  | none => rfl
  | some parts =>
    have houter := lastFor?_classRows_eq_none (j := j) (haround parts hsplit)
    simp only [h.classes, houter]

/-- The name of a class that descriptors may mention goes along with a table. -/
theorem type_nameFor (hm : m.TellsApart) (hi : i < m.namespaces.length) (h : Fills m i j t)
    (hname : m.Lists 0 name ∨ m.Unrelated name) : t.type (m.nameFor i name) = m.nameFor j name := by
  have hfirst : 0 < m.namespaces.length := by omega
  rcases hname with ⟨c, hc, rfl⟩ | hname
  · rw [nameFor, nameFor, lastFor?_classRows hm hfirst hc, lastFor?_classRows hm hfirst hc]
    exact type_of_listed hm hi h hc
  · have hnone : ∀ k, m.nameFor k name = name := fun k => by
      rw [nameFor, lastFor?_classRows_eq_none (hname 0 hfirst).1, Option.getD_none]
    rw [hnone, hnone, type_of_unrelated hi h hname]

/-! ## Members -/

/-- The name of a class that a descriptor mentions leaves the descriptor whole. -/
theorem not_mem_nameFor (hm : m.TellsApart) (hi : i < m.namespaces.length) {descriptor : String}
    (hname : name ∈ Descriptor.names descriptor) : ';' ∉ (m.nameFor i name).toList := by
  rw [nameFor, lastFor?]
  cases hrow : ((classRows 0 i m.classes).filter (·.1 == name)).getLast? with
  | none => exact Descriptor.not_mem_of_mem_names hname
  | some row =>
    have hmem := List.mem_of_mem_filter (List.mem_of_getLast? hrow)
    obtain ⟨c, hc, rfl⟩ := List.mem_map.1 hmem
    exact hm.closed i hi c hc

/-- A table turns the descriptor of a member into the one in the new names. -/
theorem map_key_descriptor (hm : m.TellsApart) (hi : i < m.namespaces.length) (h : Fills m i j t)
    {c : ClassMapping} (hc : c ∈ m.classes) {member : MemberMapping}
    (hmember : member ∈ c.fields ++ c.methods) :
    Descriptor.map t.type (m.key i c member).descriptor = (m.key j c member).descriptor := by
  rw [key, key, Descriptor.map_map fun name hname => not_mem_nameFor hm hi hname]
  exact Descriptor.map_congr fun name hname =>
    type_nameFor hm hi h (hm.mentioned c hc member hmember name hname)

/-- Classes mention a member by its reference, however they have got the names of the namespace. -/
theorem mention_eq_key (hm : m.TellsApart) (hfirst : 0 < m.namespaces.length) (h : Fills m 0 i t)
    {c : ClassMapping} (hc : c ∈ m.classes) {member : MemberMapping}
    (hmember : member ∈ c.fields ++ c.methods) : mention t i c member = m.key i c member := by
  have hself : ∀ name, m.Lists 0 name ∨ m.Unrelated name → m.nameFor 0 name = name := by
    rintro _ (⟨c, hc, rfl⟩ | hname)
    · rw [nameFor, lastFor?_classRows hm hfirst hc, Option.getD_some]
    · rw [nameFor, lastFor?_classRows_eq_none (hname 0 hfirst).1, Option.getD_none]
  rw [mention, key]
  refine congrArg (MemberRef.mk _ _) (Descriptor.map_congr fun name hname => ?_)
  have hmentioned := hm.mentioned c hc member hmember name hname
  rw [← type_nameFor hm hfirst h hmentioned, hself name hmentioned]

/-- The row of a listed member counts. -/
theorem inherited?_key (h : Fills m i j t) {filled : Std.HashMap MemberRef String}
    {members : ClassMapping → List MemberMapping} (hkeys : (m.keys i members).Nodup)
    (hfilled : ∀ r, filled[r]? = lastFor? r (memberRows (m.fromFirst i) i j members m.classes))
    {c : ClassMapping} (hc : c ∈ m.classes) {member : MemberMapping}
    (hmember : member ∈ members c) :
    t.inherited? filled (m.key i c member) = some (nameIn j member.names) := by
  rw [inherited?_of_empty h.supertypes, hfilled]
  rw [← map_fst_memberRows (j := j)] at hkeys
  have hrow : (m.key i c member, nameIn j member.names) ∈
      memberRows (m.fromFirst i) i j members m.classes :=
    listing_eq (m := m) (i := i) (j := j) c member ▸ listing_mem_memberRows hc hmember
  exact lastFor?_of_nodup hkeys hrow

/-- A field gets its other name. -/
theorem field_key (hm : m.TellsApart) (hi : i < m.namespaces.length) (h : Fills m i j t)
    {c : ClassMapping} (hc : c ∈ m.classes) {f : MemberMapping} (hf : f ∈ c.fields) :
    t.field (m.key i c f) = nameIn j f.names := by
  rw [NameTable.field, inherited?_key h (hm.fields i hi) h.fields hc hf, Option.getD_some]

theorem method_key (hm : m.TellsApart) (hi : i < m.namespaces.length) (h : Fills m i j t)
    {c : ClassMapping} (hc : c ∈ m.classes) {f : MemberMapping} (hf : f ∈ c.methods) :
    t.method (m.key i c f) = nameIn j f.names := by
  rw [NameTable.method, inherited?_key h (hm.methods i hi) h.methods hc hf, Option.getD_some]

/-- A reference goes along to the reference in the new names. -/
theorem along_key (hm : m.TellsApart) (hi : i < m.namespaces.length) (h : Fills m i j t)
    {c : ClassMapping} (hc : c ∈ m.classes) {member : MemberMapping}
    (hmember : member ∈ c.fields ++ c.methods) :
    t.along (m.key i c member) (nameIn j member.names) = m.key j c member := by
  have howner : t.type (m.key i c member).owner = nameIn j c.names := type_of_listed hm hi h hc
  rw [NameTable.along, howner, map_key_descriptor hm hi h hc hmember]
  rfl

/-! ## By way of a third namespace -/

/-- A member of which tables give the listed name goes to its name in the last namespace, by way of
another one as well as directly. -/
theorem answer_along (hm : m.TellsApart) (hi : i < m.namespaces.length)
    (hj : j < m.namespaces.length)
    {ab bc ac : NameTable} (hab : Fills m i j ab) (hbc : Fills m j k bc) (hac : Fills m i k ac)
    {c : ClassMapping} (hc : c ∈ m.classes) {member : MemberMapping}
    (hmember : member ∈ c.fields ++ c.methods) {answer : NameTable → MemberRef → String}
    (hanswer : ∀ {i j t}, i < m.namespaces.length → Fills m i j t →
      answer t (m.key i c member) = nameIn j member.names) :
    let r := m.key i c member
    let r' := ab.along r (answer ab r)
    answer bc r' = answer ac r ∧ answer ac r = nameIn k member.names ∧
      bc.along r' (answer bc r') = ac.along r (answer ac r) := by
  intro r r'
  have hr' : r' = m.key j c member := by
    rw [show r' = ab.along r (answer ab r) from rfl, hanswer hi hab]
    exact along_key hm hi hab hc hmember
  rw [hr', hanswer hj hbc, hanswer hi hac]
  refine ⟨rfl, rfl, ?_⟩
  rw [along_key hm hj hbc hc hmember, along_key hm hi hac hc hmember]

/-- Where names tell classes and members apart, there are tables between all namespaces. A table
takes each listed class, and each listed member as classes mention it, to its name in the other
namespace. Two tables by way of any namespace between them do the same, with the owner and the
descriptor of the member going along, so on the way back everything gets its old name again. -/
theorem tables_compose (hm : m.TellsApart) {a b c : String} (ha : a ∈ m.namespaces)
    (hb : b ∈ m.namespaces) (hc : c ∈ m.namespaces) :
    ∃ first i k toOld ab bc ac,
      m.namespaces.head? = some first ∧ m.space a = .ok i ∧ m.space c = .ok k ∧
      m.table first a = .ok toOld ∧ m.table a b = .ok ab ∧ m.table b c = .ok bc ∧
      m.table a c = .ok ac ∧
      ∀ cls ∈ m.classes,
        (bc.type (ab.type (nameIn i cls.names)) = ac.type (nameIn i cls.names) ∧
          ac.type (nameIn i cls.names) = nameIn k cls.names) ∧
        (∀ f ∈ cls.fields,
          let r := mention toOld i cls f
          let r' := ab.along r (ab.field r)
          bc.field r' = ac.field r ∧ ac.field r = nameIn k f.names ∧
            bc.along r' (bc.field r') = ac.along r (ac.field r)) ∧
        ∀ f ∈ cls.methods,
          let r := mention toOld i cls f
          let r' := ab.along r (ab.method r)
          bc.method r' = ac.method r ∧ ac.method r = nameIn k f.names ∧
            bc.along r' (bc.method r') = ac.along r (ac.method r) := by
  obtain ⟨first, rest, hcons⟩ := List.exists_cons_of_ne_nil (List.ne_nil_of_mem ha)
  have hfirst : m.namespaces.head? = some first := by rw [hcons, List.head?_cons]
  have hlength : 0 < m.namespaces.length := List.length_pos_of_mem ha
  obtain ⟨i, hspacea, hi⟩ := exists_space ha
  obtain ⟨j, hspaceb, hj⟩ := exists_space hb
  obtain ⟨k, hspacec, -⟩ := exists_space hc
  have table : ∀ {a b i j}, m.space a = .ok i → m.space b = .ok j →
      ∃ t, m.table a b = .ok t ∧ Fills m i j t := by
    intro a b i j ha hb
    have htable := table_eq_ok_iff.2 ⟨i, j, ha, hb, rfl⟩
    exact ⟨_, htable, fills_of_table ha hb htable⟩
  obtain ⟨toOld, htoOld, hold⟩ := table (space_head hfirst) hspacea
  obtain ⟨ab, htableab, hab⟩ := table hspacea hspaceb
  obtain ⟨bc, htablebc, hbc⟩ := table hspaceb hspacec
  obtain ⟨ac, htableac, hac⟩ := table hspacea hspacec
  refine ⟨first, i, k, toOld, ab, bc, ac, hfirst, hspacea, hspacec, htoOld, htableab, htablebc,
    htableac, fun cls hcls => ⟨?_, fun f hf => ?_, fun f hf => ?_⟩⟩
  · have htype := type_of_listed hm hi hac hcls
    refine ⟨?_, htype⟩
    rw [htype, type_of_listed hm hi hab hcls, type_of_listed hm hj hbc hcls]
  · have hmember := List.mem_append_left cls.methods hf
    rw [mention_eq_key hm hlength hold hcls hmember]
    exact answer_along hm hi hj hab hbc hac hcls hmember fun hi h => field_key hm hi h hcls hf
  · have hmember := List.mem_append_right cls.fields hf
    rw [mention_eq_key hm hlength hold hcls hmember]
    exact answer_along hm hi hj hab hbc hac hcls hmember fun hi h => method_key hm hi h hcls hf

/-- Two classes that mention each other. One is called in one namespace as the other is in another,
two methods differ by their descriptors only, and one mentions a nested class that is not listed. -/
def crossed : Mappings where
  namespaces := ["official", "intermediary", "named"]
  classes := [⟨["A", "class_1", "Screen"], [⟨"[LB;", ["x", "field_1", "children"]⟩],
      [⟨"(LB;)V", ["m", "method_1", "add"]⟩,
        ⟨"(Ljava/util/Map$Entry;LA;)V", ["m", "method_2", "put"]⟩]⟩,
    ⟨["B", "class_2", "A"], [], [⟨"()LB;", ["m", "method_1", "copy"]⟩]⟩]

/-- No two of the lines speak of the same class. -/
theorem tellsApart_crossed : crossed.TellsApart where
  classes := by decide +kernel
  closed := by decide +kernel
  fields := by decide +kernel
  methods := by decide +kernel
  mentioned := by decide +kernel

/-- The method that mentions a nested class goes from its own name to the one that people use, and
back. -/
theorem tables_compose_crossed : crossed.TellsApart ∧
    ∃ there back, crossed.table "intermediary" "named" = .ok there ∧
      crossed.table "named" "intermediary" = .ok back ∧
      let r : MemberRef := ⟨"class_1", "method_2", "(Ljava/util/Map$Entry;Lclass_1;)V"⟩
      back.method (there.along r (there.method r)) = "method_2" := by
  refine ⟨tellsApart_crossed, ?_⟩
  obtain ⟨first, i, k, toOld, there, back, again, hfirst, hi, hk, hold, hthere, hback,
    hagain, hall⟩ :=
    tables_compose tellsApart_crossed (a := "intermediary") (b := "named") (c := "intermediary")
      (by decide) (by decide) (by decide)
  cases hfirst
  cases hi
  cases hk
  obtain ⟨c, hc, f, hf, hr, hname⟩ : ∃ c ∈ crossed.classes, ∃ f ∈ c.methods,
      crossed.key 1 c f = ⟨"class_1", "method_2", "(Ljava/util/Map$Entry;Lclass_1;)V"⟩ ∧
      nameIn 1 f.names = "method_2" := by
    decide +kernel
  obtain ⟨hcomposed, hdirect, -⟩ := (hall c hc).2.2 f hf
  have hmention := mention_eq_key tellsApart_crossed (by decide)
    (fills_of_table (i := 0) rfl rfl hold) hc (List.mem_append_right c.fields hf)
  rw [hmention, hr] at hcomposed hdirect
  exact ⟨there, back, hthere, hback, hcomposed.trans (hdirect.trans hname)⟩

end Mappings

end Crosswalk
