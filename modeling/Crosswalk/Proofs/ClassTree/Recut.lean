import Crosswalk.Proofs.ClassFile.PrefixFree
import Crosswalk.Proofs.ClassTree.Bare
import Crosswalk.Proofs.ClassTree.Determined

/-!
# Bodies that are cut anew

A class file stops being readable as a class if the body of one attribute that is picked apart loses
its end or goes on behind it, be it the attribute of the class, of a field, of a method, or one
inside the body of a method (`ClassTree.ofFile_of_recut`). Together with what holds of the bytes of
class files, no accepted input is the beginning of another one, on neither level
(`ClassTree.accepted_prefix_free`).
-/

namespace Crosswalk

open Reader (Determined Consumes)

/-! ## Attributes that are picked apart -/

/-- The attributes of classes, fields and methods that are picked apart. -/
def Metadata.pickedApart : List String :=
  [signatureName, visibleName, invisibleName]

/-- The attributes of method bodies that are picked apart. -/
def Code.pickedApart : List String :=
  [framesName, localsName, localTypesName]

/-- The body of an attribute with one of the names has lost its end, or goes on behind it. The fault
is the one that names the attribute, and says which of the two it is. -/
inductive Attribute.Recut (pool : ConstantPool) (names : List String) :
    Malformed → Attribute → Attribute → Prop
  | intro {slot : Index} {name : String} {info info' : Bytes} (hname : pool.utf8 slot = .ok name)
    (hpicked : name ∈ names) (huneven : Uneven info info') :
    Attribute.Recut pool names (Scope.misfit ⟨pool, name⟩ info info') ⟨slot, info⟩ ⟨slot, info'⟩

section

variable {pool : ConstantPool} {fault : Malformed} {a a' : Attribute}

/-- Metadata that are cut anew are none. -/
theorem Metadata.Part.ofSlot_of_recut {part : Metadata.Part}
    (h : Attribute.Recut pool Metadata.pickedApart fault a a') (ha : ofSlot pool a = .ok part) :
    ofSlot pool a' = .error fault := by
  obtain ⟨hname, hpicked, huneven⟩ := h
  rw [ofSlot_eq (a := ⟨_, _⟩) hname] at ha ⊢
  simp only [Metadata.pickedApart, List.mem_cons, List.not_mem_nil, or_false] at hpicked
  rcases hpicked with rfl | rfl | rfl
  · obtain ⟨s, hs, -⟩ := map_eq_ok_iff.1 ha
    exact bind_eq_error (Scope.whole_of_uneven (Scope.determined_utf8 _) hs huneven)
  · obtain ⟨as, has, -⟩ := map_eq_ok_iff.1 ha
    exact bind_eq_error <| Annotation.readAll_of_uneven has huneven
  · obtain ⟨as, has, -⟩ := map_eq_ok_iff.1 ha
    exact bind_eq_error <| Annotation.readAll_of_uneven has huneven

/-- Frames and local variables that are cut anew are none. -/
theorem Code.Part.ofSlot_of_recut {part : Code.Part}
    (h : Attribute.Recut pool Code.pickedApart fault a a') (ha : ofSlot pool a = .ok part) :
    ofSlot pool a' = .error fault := by
  obtain ⟨hname, hpicked, huneven⟩ := h
  rw [ofSlot_eq (a := ⟨_, _⟩) hname] at ha ⊢
  have hvariables := fun s : Scope => s.determined_counted (LocalVariable.determined_read s)
  simp only [Code.pickedApart, List.mem_cons, List.not_mem_nil, or_false] at hpicked
  rcases hpicked with rfl | rfl | rfl
  · obtain ⟨fs, hfs, -⟩ := map_eq_ok_iff.1 ha
    exact bind_eq_error (Scope.whole_of_uneven
      (Scope.determined_counted _ (Frame.determined_read _)) hfs huneven)
  · obtain ⟨vs, hvs, -⟩ := map_eq_ok_iff.1 ha
    exact bind_eq_error (Scope.whole_of_uneven (hvariables _) hvs huneven)
  · obtain ⟨vs, hvs, -⟩ := map_eq_ok_iff.1 ha
    exact bind_eq_error (Scope.whole_of_uneven (hvariables _) hvs huneven)

end

/-! ## Inside method bodies -/

/-- The body of a method as it stands in its attribute, with slots for the names of its own
attributes. -/
structure BodyLayout where
  maxStack : UInt16
  maxLocals : UInt16
  bytecode : Bytes
  handlers : List Handler
  attributes : List Attribute

namespace BodyLayout

/-- The bytes of a body, every length among them. -/
def bytes (l : BodyLayout) : Bytes :=
  Bytes.ofUInt16 l.maxStack ++ (Bytes.ofUInt16 l.maxLocals ++
    (Bytes.ofUInt32 (UInt32.ofNat l.bytecode.length) ++ (l.bytecode ++
      (Bytes.counted Handler.bytes l.handlers ++ Bytes.counted Attribute.bytes l.attributes))))

/-- Every length has room in the field that announces it. -/
structure Fits (l : BodyLayout) : Prop where
  bytecode : l.bytecode.length < 4294967296
  handlers : l.handlers.length < 65536
  attributes : l.attributes.length < 65536
  infos : ∀ a ∈ l.attributes, a.Regular

end BodyLayout

/-- The bytes of a handler are taken for it. -/
theorem Handler.consumes_read (s : Scope) :
    Consumes (Handler.read s) fun t h => ∃ h', h' = h ∧ Handler.bytes h' = t := by
  have hu16 : Consumes s.u16 fun t n => t = Bytes.ofUInt16 n := Consumes.u16 _
  refine hu16.bind fun _ _ h₁ => hu16.bind fun _ _ h₂ => hu16.bind fun _ _ h₃ => ?_
  refine hu16.bind fun _ _ h₄ => .pure ⟨_, rfl, ?_⟩
  rw [h₁, h₂, h₃, h₄, List.append_nil]
  rfl

/-- The bytes of some attribute are taken for a part of a body. -/
theorem Code.Part.consumes_read (s : Scope) :
    Consumes (Code.Part.read s) fun t _ => ∃ a : Attribute, a.Regular ∧ a.bytes = t := by
  have hslot : Consumes s.utf8 fun t _ => ∃ slot, t = Bytes.ofUInt16 slot :=
    (Consumes.u16 s.short).bind fun t slot ht =>
      .lift fun _ _ => ⟨slot, by rw [ht, List.append_nil]⟩
  have hopaque : Consumes (OpaqueAttribute.read s) fun t _ =>
      ∃ a : Attribute, a.Regular ∧ a.bytes = t := by
    refine hslot.bind fun t name ht => (Consumes.u32 s.short).bind fun u n hu => ?_
    refine (Consumes.block s.short n.toNat).bind fun v info hv => .pure ?_
    obtain ⟨slot, rfl⟩ := ht
    obtain ⟨rfl, hlength⟩ := hv
    refine ⟨⟨slot, v⟩, Nat.lt_of_le_of_lt (Nat.le_of_eq hlength) n.toNat_lt, ?_⟩
    simp [Attribute.bytes, hu, hlength]
  exact hopaque.bind fun t _ ht => .lift fun _ _ => by rwa [List.append_nil]

namespace BodyLayout

/-- Every body that is read is laid out in this way. -/
theorem consumes_read (s : Scope) :
    Consumes (Code.read s) fun t _ => ∃ l : BodyLayout, l.Fits ∧ l.bytes = t := by
  refine (Consumes.u16 s.short).bind fun _ maxStack h₁ => ?_
  refine (Consumes.u16 s.short).bind fun _ maxLocals h₂ => ?_
  refine (Consumes.u32 s.short).bind fun _ n h₃ => ?_
  refine (Consumes.block s.short n.toNat).bind fun bytecode _ h₄ => ?_
  refine (Handler.consumes_read s).counted.bind fun _ handlers h₅ => ?_
  refine (Code.Part.consumes_read s).counted.bind fun _ parts h₆ => .pure ?_
  obtain ⟨rfl, hbytecode⟩ := h₄
  obtain ⟨hhandlers, handlers', hsame, rfl⟩ := h₅
  obtain ⟨hparts, as, has, rfl⟩ := h₆
  rw [List.forall₂_eq_eq_eq] at hsame
  subst hsame
  have hinfos : ∀ a ∈ as, a.Regular := fun a ha => (exists_of_forall₂_left has ha).choose_spec.2
  refine ⟨⟨maxStack, maxLocals, bytecode, handlers', as⟩,
    ⟨hbytecode ▸ n.toNat_lt, hhandlers, has.length_eq ▸ hparts, hinfos⟩, ?_⟩
  simp only [bytes, h₁, h₂, h₃, hbytecode, UInt32.ofNat_toNat, List.append_nil]

/-- A body is read as its attributes are picked apart. -/
theorem ofInfo_bytes (pool : ConstantPool) {l : BodyLayout} (h : l.Fits) : ∃ make,
    Code.ofInfo pool l.bytes = (l.attributes.mapM (Code.Part.ofSlot pool)).map make := by
  let base : Code := { maxStack := l.maxStack, maxLocals := l.maxLocals, bytecode := l.bytecode,
                       handlers := l.handlers, frames := none, locals := [], localTypes := [],
                       attributes := [] }
  refine ⟨base.ofParts, Scope.whole_of_takes ?_⟩
  exact Code.takes_body (s := ⟨pool, Code.attributeName⟩) base h.bytecode h.handlers h.attributes
    h.infos

end BodyLayout

/-- A method body has lost its end or goes on behind it, as any other attribute of a method may, or
one of its own attributes does and every length around it is right again. -/
inductive MethodTree.Recut (pool : ConstantPool) : Malformed → Attribute → Attribute → Prop
  | whole {fault : Malformed} {a a' : Attribute}
    (h : Attribute.Recut pool (Code.attributeName :: Metadata.pickedApart) fault a a') :
    MethodTree.Recut pool fault a a'
  | inside {fault : Malformed} {slot : Index} {l : BodyLayout} {attributes : List Attribute}
    (hname : pool.utf8 slot = .ok Code.attributeName) (hfits : l.Fits)
    (hfits' : BodyLayout.Fits { l with attributes })
    (h : Swapped (Attribute.Recut pool Code.pickedApart fault) l.attributes attributes) :
    MethodTree.Recut pool fault ⟨slot, l.bytes⟩
      ⟨slot, BodyLayout.bytes { l with attributes }⟩

/-- A part of a method that is cut anew is none. -/
theorem MethodTree.readPart_of_recut {pool : ConstantPool} {fault : Malformed} {a a' : Attribute}
    {part : MethodTree.Part} (h : MethodTree.Recut pool fault a a')
    (ha : readPart pool a = .ok part) : readPart pool a' = .error fault := by
  cases h with
  | whole h =>
    obtain ⟨hname, hpicked, huneven⟩ := h
    rw [readPart_eq (a := ⟨_, _⟩) hname] at ha ⊢
    split at ha
    · next hcode =>
      subst hcode
      obtain ⟨code, hcode, -⟩ := map_eq_ok_iff.1 ha
      rw [if_pos rfl]
      exact bind_eq_error (Scope.whole_of_uneven (Code.determined_read _) hcode huneven)
    · next hcode =>
      obtain ⟨part, hpart, -⟩ := map_eq_ok_iff.1 ha
      have hmetadata := List.mem_of_ne_of_mem hcode hpicked
      rw [if_neg hcode]
      rw [← Metadata.Part.ofSlot_eq (a := ⟨_, _⟩) hname] at hpart ⊢
      exact bind_eq_error (Metadata.Part.ofSlot_of_recut ⟨hname, hmetadata, huneven⟩ hpart)
  | inside hname hfits hfits' hswapped =>
    rw [readPart_eq (a := ⟨_, _⟩) hname, if_pos rfl] at ha ⊢
    obtain ⟨make, hread⟩ := BodyLayout.ofInfo_bytes pool hfits
    obtain ⟨make', hread'⟩ := BodyLayout.ofInfo_bytes pool hfits'
    obtain ⟨code, hcode, -⟩ := map_eq_ok_iff.1 ha
    rw [hread] at hcode
    obtain ⟨parts, hparts, -⟩ := map_eq_ok_iff.1 hcode
    have herror := mapM_of_swapped hswapped hparts fun _ _ _ => Code.Part.ofSlot_of_recut
    refine bind_eq_error ?_
    rw [hread', herror]
    rfl

/-! ## Class files -/

/-- Among the attributes of a member, one has made way for another one. -/
def Member.Swapped {h : Holder} (r : Attribute → Attribute → Prop) (m m' : Member h) : Prop :=
  ∃ attributes, Crosswalk.Swapped r m.attributes attributes ∧ m' = { m with attributes }

/-- One attribute of a class file that is picked apart has lost its end or goes on behind it. -/
inductive ClassFile.Recut (f : ClassFile) (fault : Malformed) : ClassFile → Prop
  | ofClass {attributes : List Attribute}
    (h : Swapped (Attribute.Recut f.constants Metadata.pickedApart fault) f.attributes attributes) :
    ClassFile.Recut f fault { f with attributes }
  | ofField {fields : List (Member .fields)}
    (h : Swapped (Member.Swapped (Attribute.Recut f.constants Metadata.pickedApart fault)) f.fields
      fields) : ClassFile.Recut f fault { f with fields }
  | ofMethod {methods : List (Member .methods)}
    (h : Swapped (Member.Swapped (MethodTree.Recut f.constants fault)) f.methods methods) :
    ClassFile.Recut f fault { f with methods }

/-- Metadata are refused if one of their attributes is cut in another place. -/
theorem Metadata.ofAttributes_of_recut {pool : ConstantPool} {fault : Malformed}
    {as as' : List Attribute} {m : Metadata}
    (h : Swapped (Attribute.Recut pool Metadata.pickedApart fault) as as')
    (has : Metadata.ofAttributes pool as = .ok m) :
    Metadata.ofAttributes pool as' = .error fault := by
  obtain ⟨parts, hparts, -⟩ := map_eq_ok_iff.1 has
  exact bind_eq_error (mapM_of_swapped h hparts fun _ _ _ => Metadata.Part.ofSlot_of_recut)

theorem FieldTree.ofMember_of_recut {pool : ConstantPool} {fault : Malformed}
    {m m' : Member .fields} {f : FieldTree}
    (h : m.Swapped (Attribute.Recut pool Metadata.pickedApart fault) m')
    (hm : FieldTree.ofMember pool m = .ok f) : FieldTree.ofMember pool m' = .error fault := by
  obtain ⟨attributes, hswapped, rfl⟩ := h
  obtain ⟨metadata, hmetadata, -⟩ := bind_eq_ok_iff.1 hm
  exact bind_eq_error (Metadata.ofAttributes_of_recut hswapped hmetadata)

/-- So is a method, whichever of its attributes it may be. -/
theorem MethodTree.ofMember_of_recut {pool : ConstantPool} {fault : Malformed}
    {m m' : Member .methods} {t : MethodTree} (h : m.Swapped (MethodTree.Recut pool fault) m')
    (hm : MethodTree.ofMember pool m = .ok t) : MethodTree.ofMember pool m' = .error fault := by
  obtain ⟨attributes, hswapped, rfl⟩ := h
  obtain ⟨_, hattributes, -⟩ := bind_eq_ok_iff.1 hm
  obtain ⟨parts, hparts, -⟩ := map_eq_ok_iff.1 hattributes
  exact bind_eq_error (bind_eq_error
    (mapM_of_swapped hswapped hparts fun _ _ _ => MethodTree.readPart_of_recut))

namespace ClassTree

/-- A class file with an attribute that is cut anew cannot be read as a class. -/
theorem ofFile_of_recut {f f' : ClassFile} {fault : Malformed} {c : ClassTree}
    (h : f.Recut fault f') (hf : ofFile f = .ok c) : ofFile f' = .error fault := by
  have hread := readFrom_of_ofFile hf
  rw [ofFile_eq]
  cases h with
  | ofClass h =>
    have hmetadata := Metadata.ofAttributes_of_recut h hread.metadata
    rw [bind_eq_of_ok hread.constants, bind_eq_of_ok hread.superName,
      bind_eq_of_ok hread.interfaces,
      bind_eq_of_ok hread.fields, bind_eq_of_ok hread.methods]
    exact bind_eq_error hmetadata
  | ofField h =>
    have hfields := mapM_of_swapped h hread.fields fun _ _ _ => FieldTree.ofMember_of_recut
    rw [bind_eq_of_ok hread.constants, bind_eq_of_ok hread.superName,
      bind_eq_of_ok hread.interfaces]
    exact bind_eq_error hfields
  | ofMethod h =>
    have hmethods := mapM_of_swapped h hread.methods fun _ _ _ => MethodTree.ofMember_of_recut
    rw [bind_eq_of_ok hread.constants, bind_eq_of_ok hread.superName,
      bind_eq_of_ok hread.interfaces,
      bind_eq_of_ok hread.fields]
    exact bind_eq_error hmethods

/-- No accepted input is the beginning of another one. Bytes of a class file that lose their end or
go on behind it are no class file any more; a class file that is read as a class is not read as one
any more if the body of an attribute that is picked apart does so, wherever the attribute is. Either
way the fault says which of the two it is. Every method body has a layout, so that there is no
attribute inside of one that this leaves out. -/
theorem accepted_prefix_free :
    (∀ input input' f, ClassFile.ofBytes input = .ok f → Uneven input input' →
      ClassFile.ofBytes input' = .error (ClassFile.misfit input input')) ∧
    (∀ f f' fault c, ofFile f = .ok c → f.Recut fault f' → ofFile f' = .error fault) ∧
    ∀ pool info code, Code.ofInfo pool info = .ok code →
      ∃ l : BodyLayout, l.Fits ∧ l.bytes = info := by
  refine ⟨fun _ _ _ hf huneven => ClassFile.ofBytes_of_uneven hf huneven,
    fun _ _ _ _ hf h => ofFile_of_recut h hf, fun pool info code hcode => ?_⟩
  obtain ⟨t, ht, l, hfits, hl⟩ :=
    BodyLayout.consumes_read _ info code [] (Scope.whole_eq_ok_iff.1 hcode)
  exact ⟨l, hfits, by rw [hl, ht, List.append_nil]⟩

/-- A class `A` with a signature, whose body is as given. -/
def signed (info : Bytes) : ClassFile :=
  { ClassFile.bare 2 0 (.ofList 1 [.utf8 "A", .className 1, .utf8 Metadata.signatureName]) with
    attributes := [⟨3, info⟩] }

theorem accepted_prefix_free_signed :
    ClassFile.ofBytes (smallestBytes ++ [0]) = .error (.trailingBytes 1) ∧
    (∃ c, ofFile (signed [0, 1]) = .ok c) ∧
    (signed [0, 1]).Recut (.truncatedAttribute Metadata.signatureName) (signed [0]) ∧
    ofFile (signed [0]) = .error (.truncatedAttribute Metadata.signatureName) := by
  have hread : ∃ f, ClassFile.ofBytes smallestBytes = .ok f := ⟨_, by cbv⟩
  obtain ⟨f, hf⟩ := hread
  have hlonger : Uneven smallestBytes (smallestBytes ++ [0]) :=
    ⟨by decide, .inl (List.prefix_append _ _)⟩
  have hsigned : ∃ c, ofFile (signed [0, 1]) = .ok c := ⟨_, by cbv⟩
  have hname : (signed [0, 1]).constants.utf8 3 = .ok Metadata.signatureName := by cbv
  have hshorter : Uneven [0, 1] [0] := ⟨by decide, .inr ⟨[1], rfl⟩⟩
  have hcut : (signed [0, 1]).Recut (.truncatedAttribute Metadata.signatureName) (signed [0]) :=
    .ofClass (.intro [] [] (.intro hname List.mem_cons_self hshorter))
  obtain ⟨c, hc⟩ := hsigned
  exact ⟨accepted_prefix_free.1 _ _ f hf hlonger, ⟨c, hc⟩, hcut,
    accepted_prefix_free.2.1 _ _ _ c hc hcut⟩

end ClassTree

end Crosswalk
