import Crosswalk.Proofs.ClassTree.MethodBodies

/-!
# Members read back

What classes, fields and methods have in common is written as a signature, annotations and the
attributes that are not picked apart; a method may have a body besides. All of it is read back
exactly if its lists can be counted and its annotations are short enough for their attributes
(`FieldTree.writes_toMember`, `MethodTree.writes_toMember`).
-/

namespace Crosswalk

open Reader (Reads)
open PoolBuilder (text Writes)

namespace Metadata

namespace Part

/-- The name of the attribute. -/
def name : Part → String
  | signature _ => signatureName
  | visible _ => visibleName
  | invisible _ => invisibleName
  | other a => a.name

/-- The texts of a part, the name of the attribute last. -/
def texts : Part → List String
  | signature s => [s, signatureName]
  | visible as => as.flatMap Annotation.texts ++ [visibleName]
  | invisible as => as.flatMap Annotation.texts ++ [invisibleName]
  | other a => [a.name]

/-- The part may have been read. -/
def Regular : Part → Prop
  | signature _ => True
  | visible as | invisible as => ∀ a ∈ as, a.Regular
  | other a => (a.name ≠ signatureName ∧ a.name ≠ visibleName ∧ a.name ≠ invisibleName) ∧
      a.info.length < 4294967296

/-- Annotations can be counted, and so can their bytes. -/
def Fits : Part → Prop
  | visible as | invisible as => as.length < 65536 ∧ Annotation.bodySize as < 4294967296
  | signature _ | other _ => True

/-- The attribute of a part. -/
def toAttribute : Part → Build Attribute
  | signature s => Attribute.build signatureName (textSlot s)
  | visible as => Attribute.build visibleName <| Annotation.writeAll as
  | invisible as => Attribute.build invisibleName <| Annotation.writeAll as
  | other a => a.toAttribute

/-- Picks an attribute with a slot for its name apart. -/
def ofSlot (pool : ConstantPool) (a : Attribute) : Except Malformed Part := do
  ofAttribute pool (← OpaqueAttribute.ofAttribute pool a)

/-- An attribute is picked apart under its name. -/
theorem ofSlot_eq {pool : ConstantPool} {a : Attribute} {name : String}
    (h : pool.utf8 a.name = .ok name) : ofSlot pool a = ofAttribute pool ⟨name, a.info⟩ := by
  rw [ofSlot, OpaqueAttribute.ofAttribute, h]
  rfl

/-- What an attribute is picked apart into: that which its name announces, or the attribute. -/
inductive Picks (p : ConstantPool) : OpaqueAttribute → Part → Prop
  | signature {info : Bytes} {s : String}
      (h : Scope.whole ⟨p, signatureName⟩ (Scope.utf8 ⟨p, signatureName⟩) info = .ok s) :
    Picks p ⟨signatureName, info⟩ (.signature s)
  | visible {info : Bytes} {as : List Annotation}
      (h : Annotation.readAll ⟨p, visibleName⟩ info = .ok as) :
    Picks p ⟨visibleName, info⟩ (.visible as)
  | invisible {info : Bytes} {as : List Annotation}
      (h : Annotation.readAll ⟨p, invisibleName⟩ info = .ok as) :
    Picks p ⟨invisibleName, info⟩ (.invisible as)
  | other {a : OpaqueAttribute} (hsignature : a.name ≠ signatureName)
      (hvisible : a.name ≠ visibleName) (hinvisible : a.name ≠ invisibleName) :
    Picks p a (.other a)

/-- What an attribute is taken for depends on its name alone. -/
theorem ofAttribute_eq_ok_iff {p : ConstantPool} {a : OpaqueAttribute} {part : Part} :
    ofAttribute p a = .ok part ↔ Picks p a part := by
  constructor
  · intro h
    obtain ⟨name, info⟩ := a
    unfold ofAttribute at h
    split at h
    · next hname =>
      obtain rfl : name = signatureName := hname
      obtain ⟨s, hs, rfl⟩ := map_eq_ok_iff.1 h
      exact .signature hs
    split at h
    · next hname =>
      obtain rfl : name = visibleName := hname
      obtain ⟨as, has, rfl⟩ := map_eq_ok_iff.1 h
      exact .visible has
    split at h
    · next hname =>
      obtain rfl : name = invisibleName := hname
      obtain ⟨as, has, rfl⟩ := map_eq_ok_iff.1 h
      exact .invisible has
    · next hsignature hvisible hinvisible =>
      cases h
      exact .other hsignature hvisible hinvisible
  · intro h
    cases h with
    | signature h | visible h | invisible h => exact map_eq_ok_iff.2 ⟨_, h, rfl⟩
    | other hsignature hvisible hinvisible =>
      rw [ofAttribute, if_neg hsignature, if_neg hvisible, if_neg hinvisible]
      rfl

/-- Annotations are given back exactly if they can be counted and their bytes can. -/
theorem annotations_iff {p : ConstantPool} {a : Attribute} {as : List Annotation}
    {make : List Annotation → Part} {name : String}
    (hlength : a.info.length = Annotation.bodySize as)
    (h : ∀ bs, Annotation.readAll ⟨p, name⟩ a.info = .ok bs ↔ as.length < 65536 ∧ bs = as)
    (back : Part) :
    a.Regular ∧ (do pure (make (← Annotation.readAll ⟨p, name⟩ a.info))) = .ok back ↔
      (as.length < 65536 ∧ Annotation.bodySize as < 4294967296) ∧ back = make as := by
  rw [Attribute.Regular, hlength, map_eq_ok_iff_of_iff h]
  constructor
  · rintro ⟨hbody, hcount, hback⟩
    exact ⟨⟨hcount, hbody⟩, hback⟩
  · rintro ⟨⟨hcount, hbody⟩, hback⟩
    exact ⟨hbody, hcount, hback⟩

/-- The attribute of a part is read back as that part exactly if everything in it can be
counted. -/
theorem writes_toAttribute {part : Part} (hregular : part.Regular) :
    Writes part.toAttribute part.texts fun p a => p.utf8 a.name = .ok part.name ∧
      ∀ back, a.Regular ∧ ofAttribute p ⟨part.name, a.info⟩ = .ok back ↔
        part.Fits ∧ back = part := by
  -- The names are apart, so an attribute is read as a part of the kind it is made of.
  cases part with
  | signature s =>
    refine (Attribute.writes_build (writes_textSlot s)).mono fun p a h => ⟨h.1, fun back => ?_⟩
    obtain ⟨-, i, hi, hinfo⟩ := h
    have hread : Scope.whole ⟨p, signatureName⟩ (Scope.utf8 ⟨p, signatureName⟩) a.info = .ok s := by
      rw [hinfo]
      exact Scope.whole_of_reads (Scope.reads_utf8 hi)
    have hlength : a.Regular := by
      rw [Attribute.Regular, hinfo]
      exact Nat.lt_of_lt_of_le (by decide : 2 < 3) (by decide)
    simp only [ofAttribute, name, if_true, hread, hlength, true_and, Fits]
    exact ⟨fun h => (Except.ok.inj h).symm, fun h => congrArg Except.ok h.symm⟩
  | visible as =>
    have hne : visibleName ≠ signatureName := by decide
    have hbody := Annotation.writes_writeAll as hregular
    refine (Attribute.writes_build hbody).mono fun p a h => ⟨h.1, ?_⟩
    simp only [ofAttribute, name, if_true, if_neg hne]
    exact annotations_iff h.2.1 (h.2.2 visibleName)
  | invisible as =>
    have hne : invisibleName ≠ signatureName ∧ invisibleName ≠ visibleName := by decide
    have hbody := Annotation.writes_writeAll as hregular
    refine (Attribute.writes_build hbody).mono fun p a h => ⟨h.1, ?_⟩
    simp only [ofAttribute, name, if_true, if_neg hne.1, if_neg hne.2]
    exact annotations_iff h.2.1 (h.2.2 invisibleName)
  | other o =>
    obtain ⟨⟨hsignature, hvisible, hinvisible⟩, hlength⟩ := hregular
    refine o.writes_toAttribute.mono fun p a h => ⟨h.1, fun back => ?_⟩
    have hother : ofAttribute p o = .ok (other o) :=
      ofAttribute_eq_ok_iff.2 (.other hsignature hvisible hinvisible)
    rw [Attribute.Regular, h.2]
    show _ ∧ ofAttribute p o = _ ↔ _
    rw [hother, Except.ok.injEq, eq_comm]
    exact and_congr_left fun _ => ⟨fun _ => trivial, fun _ => hlength⟩

/-- A part has the name of the attribute that it is picked from. -/
theorem name_of_ofAttribute {pool : ConstantPool} {a : OpaqueAttribute} {part : Part}
    (h : ofAttribute pool a = .ok part) : part.name = a.name := by
  cases ofAttribute_eq_ok_iff.1 h <;> rfl

/-- What is picked apart could be picked apart again. -/
theorem regular_of_ofAttribute {pool : ConstantPool} {a : OpaqueAttribute} {part : Part}
    (hinfo : a.info.length < 4294967296) (h : ofAttribute pool a = .ok part) : part.Regular := by
  cases ofAttribute_eq_ok_iff.1 h with
  | signature => trivial
  | visible has | invisible has => exact And.left <| Annotation.of_readAll_eq_ok has
  | other hsignature hvisible hinvisible => exact ⟨⟨hsignature, hvisible, hinvisible⟩, hinfo⟩

end Part

/-- The parts of metadata in the order in which they are written. -/
def parts (m : Metadata) : List Part :=
  (m.signature.map Part.signature).toList ++
    ((if m.visible.isEmpty then [] else [.visible m.visible]) ++
      ((if m.invisible.isEmpty then [] else [.invisible m.invisible]) ++
        m.attributes.map .other))

/-- The texts of metadata. -/
def texts (m : Metadata) : List String :=
  m.parts.flatMap Part.texts

/-- The metadata may have been read. -/
structure Regular (m : Metadata) : Prop where
  count : m.parts.length < 65536
  parts : ∀ part ∈ m.parts, part.Regular

/-- All annotations can be counted, and so can their bytes. -/
def Fits (m : Metadata) : Prop :=
  ∀ part ∈ m.parts, part.Fits

/-- The parts of metadata are the signature, the annotations, and the attributes that are carried
along. -/
theorem mem_parts {m : Metadata} {part : Part} : part ∈ m.parts ↔
    (∃ s, m.signature = some s ∧ part = .signature s) ∨
      (m.visible ≠ [] ∧ part = .visible m.visible) ∨
        (m.invisible ≠ [] ∧ part = .invisible m.invisible) ∨
          ∃ a ∈ m.attributes, part = .other a := by
  rw [parts, List.mem_append, List.mem_append, List.mem_append, mem_unlessEmpty, mem_unlessEmpty,
    List.mem_map]
  cases m.signature <;> simp [eq_comm]

/-- The parts of metadata make up those metadata. -/
theorem ofParts_parts (m : Metadata) : ofParts m.parts = m := by
  obtain ⟨signature, visible, invisible, attributes⟩ := m
  have hothers : ∀ l : List OpaqueAttribute,
      (l.map Part.other).filterMap Part.signature? = [] ∧
        (l.map Part.other).flatMap Part.visibleList = [] ∧
          (l.map Part.other).flatMap Part.invisibleList = [] ∧
            (l.map Part.other).filterMap Part.other? = l := by
    intro l
    induction l with
    | nil => exact ⟨rfl, rfl, rfl, rfl⟩
    | cons a l ih => simp [Part.signature?, Part.visibleList, Part.invisibleList, Part.other?, ih]
  obtain ⟨hsignature, hvisible, hinvisible, hattributes⟩ := hothers attributes
  cases signature <;> cases visible <;> cases invisible <;>
    simp [parts, ofParts, List.filterMap_cons, Part.signature?, Part.visibleList,
      Part.invisibleList, Part.other?, hsignature, hvisible, hinvisible, hattributes]

/-- Every part of metadata has its attribute. -/
theorem toAttributes_eq (m : Metadata) : m.toAttributes = m.parts.mapM Part.toAttribute := by
  rw [toAttributes, parts, Attribute.buildIfSome_eq Part.toAttribute .signature fun _ => rfl,
    Attribute.buildUnlessEmpty_eq Part.toAttribute .visible fun _ => rfl,
    Attribute.buildUnlessEmpty_eq Part.toAttribute .invisible fun _ => rfl]
  simp only [List.mapM_append, List.mapM_map, bind_assoc, pure_bind]
  rfl

/-- Annotations that are dropped or kept make one part each, if there are any. -/
theorem length_parts (m : Metadata) : m.parts.length =
    m.signature.toList.length +
      (min 1 m.visible.length + (min 1 m.invisible.length + m.attributes.length)) := by
  have hlist : ∀ (make : List Annotation → Part) (as : List Annotation),
      (if as.isEmpty then [] else [make as]).length = min 1 as.length := by
    intro make as
    cases as <;> simp
  rw [parts, List.length_append, List.length_append, List.length_append, hlist, hlist,
    List.length_map]
  cases m.signature <;> rfl

/-- There are no more parts than have been read. -/
theorem length_parts_ofParts_le (ps : List Part) : (ofParts ps).parts.length ≤ ps.length := by
  rw [length_parts]
  induction ps with
  | nil => simp [ofParts]
  | cons p ps ih =>
    rw [List.length_cons]
    refine Nat.le_trans ?_ (Nat.succ_le_succ ih)
    simp only [ofParts, List.flatMap_cons]
    cases p with
    | signature s =>
      simp only [List.filterMap_cons, Part.signature?, Part.other?, Part.visibleList,
        Part.invisibleList, List.nil_append, List.getLast?_cons, Option.toList_some,
        List.length_singleton]
      omega
    | visible as =>
      simp only [List.filterMap_cons, Part.signature?, Part.other?, Part.visibleList,
        Part.invisibleList, List.nil_append, List.length_append]
      omega
    | invisible as =>
      simp only [List.filterMap_cons, Part.signature?, Part.other?, Part.visibleList,
        Part.invisibleList, List.nil_append, List.length_append]
      omega
    | other a =>
      simp only [List.filterMap_cons, Part.signature?, Part.other?, Part.visibleList,
        Part.invisibleList, List.nil_append, List.length_cons]
      omega

/-- The parts of metadata that have been read could be read again. -/
theorem regular_parts_ofParts {ps : List Part} (h : ∀ part ∈ ps, part.Regular) :
    ∀ part ∈ (ofParts ps).parts, part.Regular := by
  intro part hpart
  rcases mem_parts.1 hpart with ⟨s, -, rfl⟩ | ⟨-, rfl⟩ | ⟨-, rfl⟩ | ⟨a, ha, rfl⟩
  · trivial
  · intro a ha
    obtain ⟨p, hp, ha⟩ := List.mem_flatMap.1 ha
    cases p with
    | visible as => exact h _ hp a ha
    | _ => cases ha
  · intro a ha
    obtain ⟨p, hp, ha⟩ := List.mem_flatMap.1 ha
    cases p with
    | invisible as => exact h _ hp a ha
    | _ => cases ha
  · obtain ⟨p, hp, hother⟩ := List.mem_filterMap.1 ha
    cases p <;> cases hother
    exact h _ hp

/-- The metadata of a class or a field could be read again. -/
theorem regular_of_ofAttributes {pool : ConstantPool} {as : List Attribute} {m : Metadata}
    (hcount : as.length < 65536) (has : ∀ a ∈ as, a.Regular) (h : ofAttributes pool as = .ok m) :
    m.Regular := by
  obtain ⟨ps, hps, rfl⟩ := map_eq_ok_iff.1 h
  rw [mapM_eq_ok_iff] at hps
  refine ⟨?_, regular_parts_ofParts fun part hpart => ?_⟩
  · have hle := length_parts_ofParts_le ps
    rw [← hps.length_eq] at hle
    omega
  · obtain ⟨a, ha, hpart⟩ := exists_of_forall₂_right hps hpart
    obtain ⟨o, ho, hpart⟩ := bind_eq_ok_iff.1 hpart
    obtain ⟨name, -, rfl⟩ := map_eq_ok_iff.1 ho
    exact Part.regular_of_ofAttribute (a := ⟨name, a.info⟩) (has a ha) hpart

/-- The attributes of metadata are read back exactly if everything in them can be counted. -/
theorem writes_toAttributes {m : Metadata} (h : m.Regular) :
    Writes m.toAttributes m.texts fun p as => as.length < 65536 ∧
      ∀ back, (∀ a ∈ as, a.Regular) ∧ ofAttributes p as = .ok back ↔ m.Fits ∧ back = m := by
  rw [toAttributes_eq]
  refine (Writes.mapM fun part hpart => Part.writes_toAttribute (h.parts part hpart)).mono ?_
  intro p as has
  refine ⟨has.length_eq ▸ h.count, fun back => ?_⟩
  have hback := fun ps => forall_and_mapM_eq_ok_iff (f := Part.ofSlot p) (k := ps)
    (has.imp fun part a h => by
      rw [Part.ofSlot_eq h.1]
      exact h.2)
  constructor
  · rintro ⟨hregular, hread⟩
    obtain ⟨ps, hps, rfl⟩ := map_eq_ok_iff.1 hread
    obtain ⟨hfits, rfl⟩ := (hback ps).1 ⟨hregular, hps⟩
    exact ⟨hfits, m.ofParts_parts⟩
  · rintro ⟨hfits, rfl⟩
    obtain ⟨hregular, hps⟩ := (hback _).2 ⟨hfits, rfl⟩
    exact ⟨hregular, map_eq_ok_iff.2 ⟨_, hps, back.ofParts_parts⟩⟩

end Metadata

/-! ## Fields -/

namespace FieldTree

/-- The texts of a field. -/
def texts (f : FieldTree) : List String :=
  f.metadata.texts ++ [f.name, f.descriptor]

/-- A field is read back exactly if everything in its attributes can be counted. -/
theorem writes_toMember {f : FieldTree} (h : f.metadata.Regular) :
    Writes f.toMember f.texts fun p m =>
      ∀ back, m.Regular ∧ ofMember p m = .ok back ↔ f.metadata.Fits ∧ back = f := by
  refine (Metadata.writes_toAttributes h).bind fun as => ?_
  refine (PoolBuilder.writes_text f.name).bind fun i => ?_
  refine (PoolBuilder.writes_text f.descriptor).map fun p j hj hi has back => ?_
  obtain ⟨hcount, hback⟩ := has
  constructor
  · rintro ⟨hregular, hread⟩
    obtain ⟨metadata, hmetadata, hread⟩ := bind_eq_ok_iff.1 hread
    obtain ⟨hfits, rfl⟩ := (hback metadata).1 ⟨hregular.infos, hmetadata⟩
    obtain ⟨name, hname, hread⟩ := bind_eq_ok_iff.1 hread
    obtain ⟨descriptor, hdescriptor, rfl⟩ := map_eq_ok_iff.1 hread
    cases hname.symm.trans hi
    cases hdescriptor.symm.trans hj
    exact ⟨hfits, rfl⟩
  · rintro ⟨hfits, rfl⟩
    obtain ⟨hregular, hmetadata⟩ := (hback _).2 ⟨hfits, rfl⟩
    refine ⟨⟨hcount, hregular⟩, ?_⟩
    exact bind_eq_ok_iff.2 ⟨_, hmetadata, bind_eq_ok_iff.2 ⟨_, hi, map_eq_ok_iff.2 ⟨_, hj, rfl⟩⟩⟩

/-- The metadata of a field that is read are regular. -/
theorem regular_of_ofMember {pool : ConstantPool} {m : Member .fields} {f : FieldTree}
    (hm : m.Regular) (h : ofMember pool m = .ok f) : f.metadata.Regular := by
  obtain ⟨metadata, hmetadata, h⟩ := bind_eq_ok_iff.1 h
  obtain ⟨name, -, h⟩ := bind_eq_ok_iff.1 h
  obtain ⟨descriptor, -, rfl⟩ := map_eq_ok_iff.1 h
  exact Metadata.regular_of_ofAttributes hm.attributes hm.infos hmetadata

end FieldTree

/-! ## Methods -/

namespace MethodTree

/-- The texts of a part, the name of the attribute last. -/
def partTexts : Part → List String
  | .inl part => part.texts
  | .inr code => code.texts ++ [Code.attributeName]

/-- The part may have been read. -/
def PartRegular : Part → Prop
  | .inl part => part.Regular ∧ part.name ≠ Code.attributeName
  | .inr code => code.Regular

/-- Everything in the part can be counted. -/
def PartFits : Part → Prop
  | .inl part => part.Fits
  | .inr code => code.Fits

/-- The attribute of a part. -/
def partToAttribute : Part → Build Attribute
  | .inl part => part.toAttribute
  | .inr code => Attribute.build Code.attributeName code.write

/-- The parts of a method in the order in which they are written. -/
def parts (m : MethodTree) : List Part :=
  (m.code.map .inr).toList ++ m.metadata.parts.map .inl

/-- The texts of a method. -/
def texts (m : MethodTree) : List String :=
  m.parts.flatMap partTexts ++ [m.name, m.descriptor]

/-- The method may have been read. -/
structure Regular (m : MethodTree) : Prop where
  count : m.parts.length < 65536
  parts : ∀ part ∈ m.parts, PartRegular part

/-- Everything in the attributes of a method can be counted. -/
def Fits (m : MethodTree) : Prop :=
  ∀ part ∈ m.parts, PartFits part

/-- An attribute of a method is a body if it is called so, and otherwise a part of the metadata. -/
theorem readPart_eq {pool : ConstantPool} {a : Attribute} {name : String}
    (h : pool.utf8 a.name = .ok name) : readPart pool a =
      if name = Code.attributeName then (do pure (.inr (← Code.ofInfo pool a.info)))
      else (do pure (.inl (← Metadata.Part.ofAttribute pool ⟨name, a.info⟩))) := by
  rw [readPart, OpaqueAttribute.ofAttribute, h]
  rfl

/-- The attribute of a part is read back as that part exactly if everything in it can be
counted. -/
theorem writes_partToAttribute {part : Part} (h : PartRegular part) :
    Writes (partToAttribute part) (partTexts part) fun p a =>
      ∀ back, a.Regular ∧ readPart p a = .ok back ↔ PartFits part ∧ back = part := by
  cases part with
  | inl part =>
    obtain ⟨hregular, hname⟩ := h
    refine (Metadata.Part.writes_toAttribute hregular).mono fun p a ⟨ha, hback⟩ back => ?_
    rw [readPart_eq ha, if_neg hname, map_eq_ok_iff]
    constructor
    · rintro ⟨hlength, part', hpart, rfl⟩
      obtain ⟨hfits, rfl⟩ := (hback part').1 ⟨hlength, hpart⟩
      exact ⟨hfits, rfl⟩
    · rintro ⟨hfits, rfl⟩
      obtain ⟨hlength, hpart⟩ := (hback part).2 ⟨hfits, rfl⟩
      exact ⟨hlength, part, hpart, rfl⟩
  | inr code =>
    refine (Attribute.writes_build code.writes_write).mono fun p a ⟨ha, hsize, hback⟩ back => ?_
    have hlength : a.Regular := by
      rw [Attribute.Regular, hsize]
      exact h.size
    rw [readPart_eq ha, if_pos rfl, map_eq_ok_iff_of_iff (hback h)]
    exact and_iff_right hlength

/-- The metadata among the parts of a method. -/
theorem filterMap_getLeft?_parts (m : MethodTree) :
    m.parts.filterMap Sum.getLeft? = m.metadata.parts := by
  have hall : ∀ l : List Metadata.Part,
      (l.map (Sum.inl : _ → Part)).filterMap Sum.getLeft? = l := by
    intro l
    induction l with
    | nil => rfl
    | cons part l ih => simp [ih]
  rw [parts]
  cases m.code <;> simp [List.filterMap_cons, hall]

/-- The body among the parts of a method. -/
theorem getLast?_filterMap_getRight?_parts (m : MethodTree) :
    (m.parts.filterMap Sum.getRight?).getLast? = m.code := by
  have hnone : ∀ l : List Metadata.Part,
      (l.map (Sum.inl : _ → Part)).filterMap Sum.getRight? = [] := by
    intro l
    induction l with
    | nil => rfl
    | cons part l ih => simp
  rw [parts]
  cases m.code <;> simp [hnone]

/-- Every part of a method has its attribute, and its name and descriptor come last. -/
theorem toMember_eq (m : MethodTree) : m.toMember = (do
    let attributes ← m.parts.mapM partToAttribute
    let name ← text m.name
    let descriptor ← text m.descriptor
    pure ⟨m.access, name, descriptor, attributes⟩) := by
  rw [toMember, Metadata.toAttributes_eq, parts,
    Attribute.buildIfSome_eq partToAttribute Sum.inr fun _ => rfl]
  simp only [List.mapM_append, List.mapM_map, bind_assoc, pure_bind]
  rfl

/-- A method is read back exactly if everything in its attributes can be counted. -/
theorem writes_toMember {m : MethodTree} (h : m.Regular) :
    Writes m.toMember m.texts fun p member =>
      ∀ back, member.Regular ∧ ofMember p member = .ok back ↔ m.Fits ∧ back = m := by
  rw [toMember_eq]
  refine (Writes.mapM fun part hpart => writes_partToAttribute (h.parts part hpart)).bind ?_
  intro as
  refine (PoolBuilder.writes_text m.name).bind fun i => ?_
  refine (PoolBuilder.writes_text m.descriptor).map fun p j hj hi has back => ?_
  have hback := fun ps => forall_and_mapM_eq_ok_iff has (k := ps)
  constructor
  · rintro ⟨hregular, hread⟩
    obtain ⟨⟨metadata, code⟩, hattributes, hread⟩ := bind_eq_ok_iff.1 hread
    obtain ⟨ps, hps, hparts⟩ := map_eq_ok_iff.1 hattributes
    obtain ⟨hfits, rfl⟩ := (hback ps).1 ⟨hregular.infos, hps⟩
    rw [filterMap_getLeft?_parts, getLast?_filterMap_getRight?_parts,
      Metadata.ofParts_parts] at hparts
    cases hparts
    obtain ⟨name, hname, hread⟩ := bind_eq_ok_iff.1 hread
    obtain ⟨descriptor, hdescriptor, rfl⟩ := map_eq_ok_iff.1 hread
    cases hname.symm.trans hi
    cases hdescriptor.symm.trans hj
    exact ⟨hfits, rfl⟩
  · rintro ⟨hfits, rfl⟩
    obtain ⟨hregular, hps⟩ := (hback _).2 ⟨hfits, rfl⟩
    have hattributes : ofAttributes p as = .ok (back.metadata, back.code) := by
      refine map_eq_ok_iff.2 ⟨_, hps, ?_⟩
      rw [filterMap_getLeft?_parts, getLast?_filterMap_getRight?_parts, Metadata.ofParts_parts]
    refine ⟨⟨has.length_eq ▸ h.count, hregular⟩, ?_⟩
    exact bind_eq_ok_iff.2
      ⟨_, hattributes, bind_eq_ok_iff.2 ⟨_, hi, map_eq_ok_iff.2 ⟨_, hj, rfl⟩⟩⟩

/-- What is picked apart could be picked apart again. -/
theorem regular_of_readPart {pool : ConstantPool} {a : Attribute} {part : Part} (ha : a.Regular)
    (h : readPart pool a = .ok part) : PartRegular part := by
  obtain ⟨o, ho, hpart⟩ := bind_eq_ok_iff.1 h
  obtain ⟨name, hname, rfl⟩ := map_eq_ok_iff.1 ho
  rw [readPart_eq hname] at h
  split at h
  · obtain ⟨code, hcode, rfl⟩ := map_eq_ok_iff.1 h
    exact Code.regular_of_ofInfo hcode ha
  · next hne =>
    obtain ⟨part, hread, rfl⟩ := map_eq_ok_iff.1 h
    refine ⟨Metadata.Part.regular_of_ofAttribute (a := ⟨name, a.info⟩) ha hread, ?_⟩
    rw [Metadata.Part.name_of_ofAttribute hread]
    exact hne

/-- Each part that has been read is metadata or a body. -/
theorem length_eq_add (ps : List Part) :
    ps.length = (ps.filterMap Sum.getLeft?).length + (ps.filterMap Sum.getRight?).length := by
  induction ps with
  | nil => rfl
  | cons part ps ih =>
    cases part <;> simp [List.filterMap_cons, ih] <;> omega

/-- A method that has been read could be read again. -/
theorem regular_of_ofMember {pool : ConstantPool} {member : Member .methods} {m : MethodTree}
    (hmember : member.Regular) (h : ofMember pool member = .ok m) : m.Regular := by
  obtain ⟨⟨metadata, code⟩, hattributes, h⟩ := bind_eq_ok_iff.1 h
  obtain ⟨name, -, h⟩ := bind_eq_ok_iff.1 h
  obtain ⟨descriptor, -, rfl⟩ := map_eq_ok_iff.1 h
  obtain ⟨ps, hps, hparts⟩ := map_eq_ok_iff.1 hattributes
  cases hparts
  rw [mapM_eq_ok_iff] at hps
  have hregular : ∀ part ∈ ps, PartRegular part := by
    intro part hpart
    obtain ⟨a, ha, hread⟩ := exists_of_forall₂_right hps hpart
    exact regular_of_readPart (hmember.infos a ha) hread
  have hmem : ∀ part ∈ ps.filterMap Sum.getLeft?, .inl part ∈ ps := by
    intro part hpart
    obtain ⟨p, hp, hleft⟩ := List.mem_filterMap.1 hpart
    cases p <;> cases hleft
    exact hp
  refine ⟨?_, fun part hpart => ?_⟩
  · have hle := Metadata.length_parts_ofParts_le (ps.filterMap Sum.getLeft?)
    have hcount := hmember.attributes
    rw [hps.length_eq, length_eq_add] at hcount
    -- Of several bodies only the last one is kept, so there are no more parts than attributes.
    have hlast : (ps.filterMap Sum.getRight?).getLast?.toList.length ≤
        (ps.filterMap Sum.getRight?).length := by
      cases (ps.filterMap Sum.getRight?) <;> simp [List.getLast?_cons]
    rw [parts, List.length_append, List.length_map, Option.toList_map, List.length_map]
    show (ps.filterMap Sum.getRight?).getLast?.toList.length + (Metadata.ofParts _).parts.length < _
    omega
  · rw [parts, List.mem_append, Option.toList_map, List.mem_map, List.mem_map] at hpart
    rcases hpart with ⟨code, hcode, rfl⟩ | ⟨part, hpart, rfl⟩
    · obtain ⟨p, hp, hright⟩ :=
        List.mem_filterMap.1 (List.mem_of_getLast? (Option.mem_toList.1 hcode))
      cases p <;> cases hright
      exact hregular _ hp
    · refine ⟨Metadata.regular_parts_ofParts (fun part hpart => (hregular _ (hmem part hpart)).1)
        part hpart, ?_⟩
      rcases Metadata.mem_parts.1 hpart with ⟨s, -, rfl⟩ | ⟨-, rfl⟩ | ⟨-, rfl⟩ | ⟨a, ha, rfl⟩
      · exact (by decide : Metadata.signatureName ≠ Code.attributeName)
      · exact (by decide : Metadata.visibleName ≠ Code.attributeName)
      · exact (by decide : Metadata.invisibleName ≠ Code.attributeName)
      · obtain ⟨p, hp, hother⟩ := List.mem_filterMap.1 ha
        cases p <;> cases hother
        exact (hregular _ (hmem _ hp)).2

end MethodTree

end Crosswalk
