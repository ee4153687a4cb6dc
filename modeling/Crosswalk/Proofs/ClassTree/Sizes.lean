import Crosswalk.Proofs.ClassTree.RoundTrip

/-!
# How long annotations can get

Several attributes with annotations are read as one list, so there may be more bytes in it than a
single attribute can announce. They are still parts of the class file that was read, so there is
room for them unless that file is larger than an attribute can be (`ClassTree.bodiesFit_of_decode`).
-/

namespace Crosswalk

/-! ## Metadata -/

namespace Metadata

/-- The body of the annotations that the part holds takes no more bytes than that. -/
def Part.Within : Part → Nat → Prop
  | visible as, n | invisible as, n => Annotation.bodySize as ≤ n
  | signature _, _ | other _, _ => True

/-- The bodies of the annotations take no more bytes than that, if there are any. -/
structure Within (m : Metadata) (n : Nat) : Prop where
  visible : m.visible ≠ [] → Annotation.bodySize m.visible ≤ n
  invisible : m.invisible ≠ [] → Annotation.bodySize m.invisible ≤ n

theorem Within.mono {m : Metadata} {n k : Nat} (h : m.Within n) (hle : n ≤ k) : m.Within k :=
  ⟨fun hne => Nat.le_trans (h.visible hne) hle, fun hne => Nat.le_trans (h.invisible hne) hle⟩

/-- What is picked apart is no larger than the attribute that it comes from. -/
theorem Part.within_of_ofAttribute {pool : ConstantPool} {a : OpaqueAttribute} {part : Part}
    (h : ofAttribute pool a = .ok part) : part.Within a.info.length := by
  cases ofAttribute_eq_ok_iff.1 h with
  | visible has | invisible has =>
    exact Nat.le_of_eq <| And.right <| Annotation.of_readAll_eq_ok has
  | signature | other => trivial

/-- Lists that are read as one take up no more bytes than one by one. -/
theorem bodySize_flatMap_le {select : Part → List Annotation} {ps : List Part} {ns : List Nat}
    (hselect : ∀ part n, part.Within n → select part ≠ [] → Annotation.bodySize (select part) ≤ n)
    (h : List.Forall₂ Part.Within ps ns) (hne : ps.flatMap select ≠ []) :
    Annotation.bodySize (ps.flatMap select) ≤ ns.sum := by
  induction h with
  | nil => exact absurd rfl hne
  | @cons part n ps ns hpart _ ih =>
    rw [List.flatMap_cons] at hne ⊢
    rw [List.sum_cons]
    by_cases hfirst : select part = []
    · rw [hfirst, List.nil_append] at hne ⊢
      have hrest := ih hne
      omega
    · have hsize := hselect part n hpart hfirst
      by_cases hrest : ps.flatMap select = []
      · rw [hrest, List.append_nil]
        omega
      · have hsizes := ih hrest
        unfold Annotation.bodySize at hsize hsizes ⊢
        rw [List.map_append, List.sum_append]
        omega

/-- Parts within their sizes are metadata within the sum. -/
theorem within_ofParts {ps : List Part} {ns : List Nat} (h : List.Forall₂ Part.Within ps ns) :
    (ofParts ps).Within ns.sum where
  visible := bodySize_flatMap_le (fun part n hpart hne => by
    cases part with
    | visible as => exact hpart
    | _ => exact absurd rfl hne) h
  invisible := bodySize_flatMap_le (fun part n hpart hne => by
    cases part with
    | invisible as => exact hpart
    | _ => exact absurd rfl hne) h

theorem within_of_ofAttributes {pool : ConstantPool} {as : List Attribute} {m : Metadata}
    (h : ofAttributes pool as = .ok m) : m.Within (infoSize as) := by
  obtain ⟨ps, hps, rfl⟩ := map_eq_ok_iff.1 h
  refine within_ofParts (List.forall₂_map_right_iff.2 ?_)
  refine ((mapM_eq_ok_iff.1 hps).imp fun a part hpart => ?_).flip
  obtain ⟨o, ho, hpart⟩ := bind_eq_ok_iff.1 hpart
  obtain ⟨name, -, rfl⟩ := map_eq_ok_iff.1 ho
  exact Part.within_of_ofAttribute hpart

/-- Metadata fit if their annotations can be counted, and so can their bytes. -/
theorem fits_iff {m : Metadata} : m.Fits ↔
    (m.visible.length < 65536 ∧ m.invisible.length < 65536) ∧
      Annotation.bodySize m.visible < 4294967296 ∧
        Annotation.bodySize m.invisible < 4294967296 := by
  have hlist : ∀ as : List Annotation,
      (as ≠ [] → as.length < 65536 ∧ Annotation.bodySize as < 4294967296) ↔
        as.length < 65536 ∧ Annotation.bodySize as < 4294967296 := by
    intro as
    cases as with
    | nil =>
      unfold Annotation.bodySize
      simp
    | cons a as => simp
  rw [and_and_and_comm, ← hlist m.visible, ← hlist m.invisible]
  constructor
  · exact fun h => ⟨fun hne => h (.visible m.visible) (mem_parts.2 (.inr (.inl ⟨hne, rfl⟩))),
      fun hne => h (.invisible m.invisible) (mem_parts.2 (.inr (.inr (.inl ⟨hne, rfl⟩))))⟩
  · rintro ⟨hvisible, hinvisible⟩ part hpart
    rcases mem_parts.1 hpart with ⟨s, -, rfl⟩ | ⟨hne, rfl⟩ | ⟨hne, rfl⟩ | ⟨a, -, rfl⟩
    · trivial
    · exact hvisible hne
    · exact hinvisible hne
    · trivial

end Metadata

/-! ## Members -/

/-- The metadata of a field are no larger than its attributes. -/
theorem FieldTree.within_of_ofMember {pool : ConstantPool} {m : Member .fields} {f : FieldTree}
    (h : ofMember pool m = .ok f) : f.metadata.Within (infoSize m.attributes) := by
  obtain ⟨metadata, hmetadata, h⟩ := bind_eq_ok_iff.1 h
  obtain ⟨name, -, h⟩ := bind_eq_ok_iff.1 h
  obtain ⟨descriptor, -, rfl⟩ := map_eq_ok_iff.1 h
  exact Metadata.within_of_ofAttributes hmetadata

/-- The bodies of methods are left out, so there are no more bytes than those of all attributes. -/
theorem MethodTree.exists_within {pool : ConstantPool} {as : List Attribute}
    {ps : List MethodTree.Part}
    (h : List.Forall₂ (fun a part => readPart pool a = .ok part) as ps) :
    ∃ ns, List.Forall₂ Metadata.Part.Within (ps.filterMap Sum.getLeft?) ns ∧
      ns.sum ≤ infoSize as := by
  induction h with
  | nil => exact ⟨[], .nil, Nat.zero_le _⟩
  | @cons a part as ps hpart _ ih =>
    obtain ⟨ns, hns, hsum⟩ := ih
    have hsize : infoSize (a :: as) = a.info.length + infoSize as := rfl
    obtain ⟨o, ho, hread⟩ := bind_eq_ok_iff.1 hpart
    obtain ⟨name, hname, rfl⟩ := map_eq_ok_iff.1 ho
    rw [readPart_eq hname] at hpart
    split at hpart
    · obtain ⟨code, -, rfl⟩ := map_eq_ok_iff.1 hpart
      exact ⟨ns, hns, by omega⟩
    · obtain ⟨part, hleft, rfl⟩ := map_eq_ok_iff.1 hpart
      have hfirst : part.Within a.info.length := Metadata.Part.within_of_ofAttribute hleft
      exact ⟨_, .cons hfirst hns, by rw [List.sum_cons]; omega⟩

theorem MethodTree.within_of_ofMember {pool : ConstantPool} {member : Member .methods}
    {m : MethodTree} (h : ofMember pool member = .ok m) :
    m.metadata.Within (infoSize member.attributes) := by
  obtain ⟨⟨metadata, code⟩, hattributes, h⟩ := bind_eq_ok_iff.1 h
  obtain ⟨name, -, h⟩ := bind_eq_ok_iff.1 h
  obtain ⟨descriptor, -, rfl⟩ := map_eq_ok_iff.1 h
  obtain ⟨ps, hps, hparts⟩ := map_eq_ok_iff.1 hattributes
  cases hparts
  obtain ⟨ns, hns, hsum⟩ := exists_within (mapM_eq_ok_iff.1 hps)
  exact (Metadata.within_ofParts hns).mono hsum

/-! ## Classes -/

namespace ClassTree

/-- The metadata of a class and of its members. -/
def metadatas (c : ClassTree) : List Metadata :=
  c.metadata :: (c.fields.map (·.metadata) ++ c.methods.map (·.metadata))

/-- The annotations of a class that is read are parts of the bytes it is read from. -/
theorem within_of_decode {input : Bytes} {c : ClassTree} (h : decode input = .ok c) :
    ∀ m ∈ c.metadatas, m.Within input.length := by
  obtain ⟨f, hf, h⟩ := bind_eq_ok_iff.1 h
  have hsize := ClassFile.infoSize_le hf
  rw [ClassFile.infoSize] at hsize
  have hread := readFrom_of_ofFile h
  intro m hm
  rcases List.mem_cons.1 hm with rfl | hm
  · exact (Metadata.within_of_ofAttributes hread.metadata).mono (by omega)
  rcases List.mem_append.1 hm with hm | hm
  · obtain ⟨field, hfield, rfl⟩ := List.mem_map.1 hm
    obtain ⟨member, hmember, hread⟩ :=
      exists_of_forall₂_right (mapM_eq_ok_iff.1 hread.fields) hfield
    have hle :=
      List.le_sum_of_mem (List.mem_map_of_mem (f := fun m => infoSize m.attributes) hmember)
    exact (FieldTree.within_of_ofMember hread).mono (by omega)
  · obtain ⟨method, hmethod, rfl⟩ := List.mem_map.1 hm
    obtain ⟨member, hmember, hread⟩ :=
      exists_of_forall₂_right (mapM_eq_ok_iff.1 hread.methods) hmethod
    have hle :=
      List.le_sum_of_mem (List.mem_map_of_mem (f := fun m => infoSize m.attributes) hmember)
    exact (MethodTree.within_of_ofMember hread).mono (by omega)

/-- Annotations and local variables can be counted by sixteen bits. -/
structure ListsFit (c : ClassTree) : Prop where
  annotations : ∀ m ∈ c.metadatas, m.visible.length < 65536 ∧ m.invisible.length < 65536
  locals : ∀ m ∈ c.methods, ∀ code ∈ m.code, code.Fits

/-- The bytes of annotations can be counted by thirty-two bits. -/
def BodiesFit (c : ClassTree) : Prop :=
  ∀ m ∈ c.metadatas, Annotation.bodySize m.visible < 4294967296 ∧
    Annotation.bodySize m.invisible < 4294967296

/-- Attributes fit if their lists and their bodies do. -/
theorem attributesFit_iff {c : ClassTree} : c.AttributesFit ↔ c.ListsFit ∧ c.BodiesFit := by
  have hmethod : ∀ m : MethodTree, m.Fits ↔ m.metadata.Fits ∧ ∀ code ∈ m.code, code.Fits := by
    intro m
    rw [MethodTree.Fits, MethodTree.parts]
    simp only [Option.toList_map, List.mem_append, List.mem_map, Option.mem_toList]
    constructor
    · exact fun h => ⟨fun part hpart => h _ (.inr ⟨part, hpart, rfl⟩),
        fun code hcode => h _ (.inl ⟨code, hcode, rfl⟩)⟩
    · rintro ⟨hmetadata, hcode⟩ part (⟨code, hmem, rfl⟩ | ⟨part, hmem, rfl⟩)
      · exact hcode code hmem
      · exact hmetadata part hmem
  have hall : (∀ m ∈ c.metadatas, m.Fits) ↔
      c.metadata.Fits ∧ (∀ f ∈ c.fields, f.metadata.Fits) ∧ ∀ m ∈ c.methods, m.metadata.Fits := by
    simp [metadatas, or_imp, forall_and]
  constructor
  · rintro ⟨hfields, hmethods, hmetadata⟩
    have hfits := hall.2 ⟨hmetadata, hfields, fun m hm => ((hmethod m).1 (hmethods m hm)).1⟩
    exact ⟨⟨fun m hm => (Metadata.fits_iff.1 (hfits m hm)).1,
      fun m hm => ((hmethod m).1 (hmethods m hm)).2⟩, fun m hm =>
        (Metadata.fits_iff.1 (hfits m hm)).2⟩
  · rintro ⟨⟨hannotations, hlocals⟩, hbodies⟩
    obtain ⟨hmetadata, hfields, hmethods⟩ := hall.1 fun m hm =>
      Metadata.fits_iff.2 ⟨hannotations m hm, hbodies m hm⟩
    exact ⟨hfields, fun m hm => (hmethod m).2 ⟨hmethods m hm, hlocals m hm⟩, hmetadata⟩

/-- There is room for the bytes of annotations that have been read, unless they are read from more
bytes than an attribute can have. -/
theorem bodiesFit_of_decode {input : Bytes} {c : ClassTree} (h : decode input = .ok c)
    (hlength : input.length < 4294967296) : c.BodiesFit := by
  intro m hm
  obtain ⟨hvisible, hinvisible⟩ := within_of_decode h m hm
  have hlist : ∀ as : List Annotation, (as ≠ [] → Annotation.bodySize as ≤ input.length) →
      Annotation.bodySize as < 4294967296 := by
    intro as has
    by_cases hne : as = []
    · simp [hne, Annotation.bodySize]
    · exact Nat.lt_of_le_of_lt (has hne) hlength
  exact ⟨hlist _ hvisible, hlist _ hinvisible⟩

end ClassTree

end Crosswalk
