import Crosswalk.Proofs.Names.DescriptorRewriting
import Crosswalk.Proofs.Signature.Composing
import Crosswalk.Proofs.Slots.Layout
import Crosswalk.Renaming.Tree

/-!
# Two renamings in a row

A class that has been renamed twice is as if it had been renamed once, by names that follow the
members on their way: the second renaming is asked for a member with the owner, the name and the
descriptor that the first one has given it (`Renaming.after`). So everything in a class is renamed,
and just once, and no member is asked for once what it is asked by has been renamed already
(`ClassTree.renamings_compose`).

The names of classes that the first renaming gives have to be found again where they are written
down, which is what `Renaming.Lasting` asks for.
-/

namespace Crosswalk

open Signature (IsSignature KeepsNesting Plain)

/-! ## Annotations and frames -/

section Maps

variable {f g : String → String}

mutual

/-- The descriptors of an annotation can be changed twice at once. -/
theorem Annotation.map_map : ∀ a : Annotation, (a.map f).map g = a.map fun d => g (f d)
  | .mk type elements => by simp [Element.mapAll_mapAll elements, Annotation.map]

/-- Elements may be changed twice. -/
theorem Element.mapAll_mapAll :
    ∀ l : List Element, Element.mapAll g (Element.mapAll f l) = Element.mapAll (fun d => g (f d)) l
  | [] => by simp [Element.mapAll]
  | element :: rest => by
    simp [Element.mapAll, Element.map_map element, Element.mapAll_mapAll rest]

theorem Element.map_map : ∀ e : Element, (e.map f).map g = e.map fun d => g (f d)
  | .mk name value => by simp [Element.map, ElementValue.map_map value]

theorem ElementValue.map_map : ∀ v : ElementValue, (v.map f).map g = v.map fun d => g (f d)
  | .const tag index => by simp [ElementValue.map]
  | .enum descriptor name => by simp [ElementValue.map]
  | .classInfo descriptor => by simp [ElementValue.map]
  | .nested value => by simp [ElementValue.map, Annotation.map_map value]
  | .array values => by simp [ElementValue.map, ElementValue.mapAll_mapAll values]

theorem ElementValue.mapAll_mapAll :
    ∀ l : List ElementValue,
      ElementValue.mapAll g (ElementValue.mapAll f l) = ElementValue.mapAll (fun d => g (f d)) l
  | [] => by simp [ElementValue.mapAll]
  | value :: rest => by
    simp [ElementValue.mapAll, ElementValue.map_map value, ElementValue.mapAll_mapAll rest]

end

theorem VerificationType.map_map (t : VerificationType String) :
    (t.map f).map g = t.map fun name => g (f name) := by
  cases t <;> rfl

theorem Frame.map_map (frame : Frame String) :
    (frame.map f).map g = frame.map fun name => g (f name) := by
  cases frame <;> simp [map, VerificationType.map_map]

end Maps

/-! ## One renaming after another -/

namespace Renaming

/-- What a renaming makes of what another one has made. It is asked for a member as the other one
has left it. -/
def after (second first : Renaming) : Renaming where
  type name := second.type (first.type name)
  field m := second.field (first.member m (first.field m))
  method m := second.method (first.member m (first.method m))

/-- New names that are found again: none ends early in a descriptor or in a signature, none looks
like an array, and a class inside another one stays inside it. -/
structure Lasting (r : Renaming) : Prop where
  closed : ∀ name, ';' ∉ name.toList → ';' ∉ (r.type name).toList
  plain : ∀ name, Plain name → Plain (r.type name)
  single : ∀ name, Descriptor.isArray name = false → Descriptor.isArray (r.type name) = false
  nested : KeepsNesting r.type

variable {first second : Renaming}

/-- A descriptor gets its new names twice. -/
theorem descriptor_after (h : first.Lasting) (d : String) :
    second.descriptor (first.descriptor d) = (second.after first).descriptor d :=
  Descriptor.map_map fun name hname => h.closed name (Descriptor.not_mem_of_mem_names hname)

/-- An array gets the names of its descriptor. -/
theorem classConstant_of_isArray {r : Renaming} {name : String}
    (h : Descriptor.isArray name = true) : r.classConstant name = r.descriptor name := if_pos h

/-- Any other class constant is a name. -/
theorem classConstant_of_not_isArray {r : Renaming} {name : String}
    (h : Descriptor.isArray name = false) : r.classConstant name = r.type name := by
  rw [classConstant, Descriptor.mapConstant, h]
  rfl

theorem classConstant_after (h : first.Lasting) (name : String) :
    second.classConstant (first.classConstant name) = (second.after first).classConstant name := by
  by_cases harray : Descriptor.isArray name = true
  · have hstays : Descriptor.isArray (first.descriptor name) = true := Descriptor.isArray_map harray
    rw [classConstant_of_isArray harray, classConstant_of_isArray hstays, descriptor_after h,
      classConstant_of_isArray harray]
  · have hname : Descriptor.isArray name = false := by simpa using harray
    rw [classConstant_of_not_isArray hname, classConstant_of_not_isArray (h.single name hname),
      classConstant_of_not_isArray hname]
    rfl

/-- A signature gets its new names twice if the second ones keep nested classes nested. -/
theorem signature_after (h : first.Lasting) (hnested : KeepsNesting second.type) {s : String}
    (hs : IsSignature s) :
    second.signature (first.signature s) = (second.after first).signature s :=
  Signature.map_map hs h.plain h.nested hnested

theorem member_after (h : first.Lasting) (m : MemberRef) (name new : String) :
    second.member (first.member m name) new = (second.after first).member m new := by
  rw [member, member, member, classConstant_after h, descriptor_after h]

end Renaming

/-! ## Classes -/

/-- The signatures of local variables. -/
def Code.signatures (code : Code) : List String :=
  code.localTypes.map LocalVariable.type

/-- The signature of a method and those in its body. -/
def MethodTree.signatures (m : MethodTree) : List String :=
  m.metadata.signature.toList ++ m.code.toList.flatMap Code.signatures

/-- Every signature in a class. -/
def ClassTree.signatures (c : ClassTree) : List String :=
  c.metadata.signature.toList ++ (c.fields.flatMap fun f => f.metadata.signature.toList) ++
    c.methods.flatMap MethodTree.signatures

variable {first second : Renaming}

theorem Entry.rename_rename (h : first.Lasting) (e : Entry) :
    (e.rename first).rename second = e.rename (second.after first) := by
  cases e with
  | className name => simp [rename, Renaming.classConstant_after h]
  | fieldRef m => simp [rename, Renaming.member_after h, Renaming.after]
  | methodRef m ofInterface => simp [rename, Renaming.member_after h, Renaming.after]
  | nameAndType name d => simp [rename, Renaming.descriptor_after h]
  | methodType d => simp [rename, Renaming.descriptor_after h]
  | dynamic bootstrap name d => simp [rename, Renaming.descriptor_after h]
  | invokeDynamic bootstrap name d => simp [rename, Renaming.descriptor_after h]
  | _ => rfl

theorem Code.rename_rename (h : first.Lasting) (hnested : KeepsNesting second.type) {code : Code}
    (hs : ∀ s ∈ code.signatures, IsSignature s) :
    (code.rename first).rename second = code.rename (second.after first) := by
  have hframe : ∀ frame : Frame String,
      (frame.map first.classConstant).map second.classConstant =
        frame.map (second.after first).classConstant := by
    intro frame
    rw [frame.map_map]
    simp only [Renaming.classConstant_after h]
  have hlocal : ∀ v : LocalVariable,
      (v.mapType first.descriptor).mapType second.descriptor =
        v.mapType (second.after first).descriptor := by
    intro v
    simp only [LocalVariable.mapType, Renaming.descriptor_after h]
  have htype : ∀ v ∈ code.localTypes,
      (v.mapType first.signature).mapType second.signature =
        v.mapType (second.after first).signature := by
    intro v hv
    have hsignature := Renaming.signature_after h hnested (hs v.type (List.mem_map_of_mem hv))
    simp only [LocalVariable.mapType, hsignature]
  have htypes : (code.localTypes.map fun v => v.mapType first.signature).map
      (fun v => v.mapType second.signature) =
        code.localTypes.map fun v => v.mapType (second.after first).signature := by
    rw [List.map_map]
    exact List.map_congr_left htype
  simp only [rename, htypes, List.map_map, Option.map_map, Function.comp_def, hframe, hlocal]

theorem Metadata.rename_rename (h : first.Lasting) (hnested : KeepsNesting second.type)
    {m : Metadata} (hs : ∀ s ∈ m.signature, IsSignature s) :
    (m.rename first).rename second = m.rename (second.after first) := by
  have hsignature : (m.signature.map first.signature).map second.signature =
      m.signature.map (second.after first).signature := by
    rw [Option.map_map]
    refine Option.map_congr fun s hmem => ?_
    rw [Function.comp_apply]
    exact Renaming.signature_after h hnested (hs s hmem)
  simp only [rename, hsignature, List.map_map, Function.comp_def, Annotation.map_map,
    Renaming.descriptor_after h]

/-- A field is asked for by what the first renaming has made of it, for which its owner has to be a
class. -/
theorem FieldTree.rename_rename (h : first.Lasting) (hnested : KeepsNesting second.type)
    {owner : String} (howner : Descriptor.isArray owner = false) {f : FieldTree}
    (hs : ∀ s ∈ f.metadata.signature, IsSignature s) :
    (f.rename first owner).rename second (first.type owner) =
      f.rename (second.after first) owner := by
  have hmember : first.classConstant owner = first.type owner :=
    Renaming.classConstant_of_not_isArray howner
  simp only [rename, Metadata.rename_rename h hnested hs, Renaming.descriptor_after h,
    Renaming.after,
    Renaming.member, hmember]

/-- A method gets its new names twice, of the owner that has its new name by then. -/
theorem MethodTree.rename_rename (h : first.Lasting) (hnested : KeepsNesting second.type)
    {owner : String} (howner : Descriptor.isArray owner = false) {m : MethodTree}
    (hs : ∀ s ∈ m.signatures, IsSignature s) :
    (m.rename first owner).rename second (first.type owner) =
      m.rename (second.after first) owner := by
  have hmember : first.classConstant owner = first.type owner :=
    Renaming.classConstant_of_not_isArray howner
  rw [signatures, List.forall_mem_append] at hs
  have hmetadata := Metadata.rename_rename h hnested fun s hmem => hs.1 s (Option.mem_toList.2 hmem)
  have hcode : (m.code.map fun code => code.rename first).map (fun code => code.rename second) =
      m.code.map fun code => code.rename (second.after first) := by
    rw [Option.map_map]
    refine Option.map_congr fun code hmem => Code.rename_rename h hnested fun s hmem' => ?_
    exact hs.2 s (List.mem_flatMap_of_mem (Option.mem_toList.2 hmem) hmem')
  simp only [rename, hmetadata, hcode, Renaming.descriptor_after h, Renaming.after,
    Renaming.member, hmember]

/-- Two renamings in a row do what one does that is asked for members on their way, and for classes
by both names in turn. -/
theorem ClassTree.renamings_compose (h : first.Lasting) (hnested : KeepsNesting second.type)
    {c : ClassTree} (hname : Descriptor.isArray c.name = false)
    (hs : ∀ s ∈ c.signatures, IsSignature s) :
    (c.rename first).rename second = c.rename (second.after first) := by
  rw [signatures, List.forall_mem_append, List.forall_mem_append, List.forall_mem_flatMap,
    List.forall_mem_flatMap] at hs
  obtain ⟨⟨hclass, hfields⟩, hmethods⟩ := hs
  have hmetadata :=
    Metadata.rename_rename h hnested fun s hmem => hclass s (Option.mem_toList.2 hmem)
  -- Members are asked for by the name that the class has got meanwhile.
  have hfield : ∀ f ∈ c.fields, (f.rename first c.name).rename second (first.type c.name) =
      f.rename (second.after first) c.name := by
    intro f hf
    apply FieldTree.rename_rename h hnested hname
    exact fun s hmem => hfields f hf s (Option.mem_toList.2 hmem)
  have hmethod : ∀ m ∈ c.methods, (m.rename first c.name).rename second (first.type c.name) =
      m.rename (second.after first) c.name := fun m hm =>
    MethodTree.rename_rename h hnested hname (hmethods m hm)
  have hconstants : (c.constants.map (·.rename first) (Entry.width_rename first)).map
      (·.rename second) (Entry.width_rename second) =
        c.constants.map (·.rename (second.after first)) (Entry.width_rename _) := by
    refine EntryPool.ext_toList ?_
    rw [EntryPool.toList_map, EntryPool.toList_map, EntryPool.toList_map, List.map_map]
    refine List.map_congr_left fun item _ => ?_
    rw [Function.comp_apply, Entry.rename_rename h]
  rw [rename, rename, rename]
  simp only [List.map_map, Option.map_map, hmetadata, hconstants]
  congr 1
  · exact List.map_congr_left hfield
  · exact List.map_congr_left hmethod

/-! ## A class that is renamed everywhere -/

/-- Every class is put into a package, and members get a letter in front. -/
def packed : Renaming where
  type name := "p/" ++ name
  field m := "f" ++ m.name
  method m := "m" ++ m.name

/-- Every class is put into a package, and members are called by all that they are asked for with.
-/
def spelledOut : Renaming where
  type name := "q/" ++ name
  field m := m.owner ++ " " ++ m.name ++ " " ++ m.descriptor
  method m := m.owner ++ " " ++ m.name ++ " " ++ m.descriptor

/-- A package in front keeps nested classes nested. -/
theorem keepsNesting_package (package : String) : KeepsNesting fun name => package ++ name := by
  intro outside simple
  unfold Signature.Token.Keeps
  refine ⟨simple.toList, ?_⟩
  simp

/-- With a package in front all names last. -/
theorem lasting_packed : packed.Lasting where
  closed name h := by simpa [packed] using h
  plain name h := by
    have hpackage : Plain "p/" := by decide +kernel
    unfold Plain at h hpackage ⊢
    rw [packed, String.toList_append, List.forall_mem_append]
    exact ⟨hpackage, h⟩
  single name _ := by simp [packed, Descriptor.isArray]
  nested := keepsNesting_package "p/"

/-- A class that names classes in each of the ways in which they are renamed. -/
def naming : ClassTree where
  version := ⟨52, 0⟩
  access := .known _ 0x21
  name := "a/A"
  superName := some "a/B"
  interfaces := ["a/C"]
  fields := [⟨.known _ 0, "x", "[La/A;", ⟨some "La/B<TT;>.I;", [], [], []⟩⟩]
  methods := [⟨.known _ 0, "m", "(La/A;)V",
    ⟨none, [.mk "La/D;" [.mk "v" (.array [.classInfo "La/A;"])]], [], []⟩,
    some
      { maxStack := 1
        maxLocals := 2
        bytecode := [177]
        handlers := []
        frames := some [.append 0 [.object "[La/A;", .object "a/B"]]
        locals := [⟨0, 1, "this", "La/A;", 0⟩]
        localTypes := [⟨0, 1, "t", "TT;", 1⟩]
        attributes := [] }⟩]
  metadata := ⟨some "<T:>La/B<TT;>;La/C;", [], [], []⟩
  constants := .ofList [.utf8 "a/A", .className "a/A", .className "[La/A;",
    .methodRef ⟨"a/A", "m", "(La/A;)V"⟩ false]

/-- The class with a type argument that its signatures name. -/
def parameterized : Signature.ClassType :=
  .outermost "a/B" (.bounded .exactly (.typeVariable "T") .none)

/-- The field is asked for in its second package, with its letter in front and the array of its
class as it is called there. -/
theorem ClassTree.renamings_compose_naming :
    packed.Lasting ∧ KeepsNesting spelledOut.type ∧ Descriptor.isArray naming.name = false ∧
      (∀ s ∈ naming.signatures, IsSignature s) ∧
      (naming.rename packed).rename spelledOut = naming.rename (spelledOut.after packed) ∧
      ((naming.rename packed).rename spelledOut).fields.map FieldTree.name =
        ["p/a/A fx [Lp/a/A;"] := by
  have hnested : KeepsNesting spelledOut.type := keepsNesting_package "q/"
  have hname : Descriptor.isArray naming.name = false := by decide
  have hclass : IsSignature "<T:>La/B<TT;>;La/C;" :=
    ⟨.ofClass [⟨"T", none, []⟩] parameterized [.outermost "a/C" .none], by decide +kernel,
      by decide +kernel, List.forall_mem_nil _⟩
  have hfield : IsSignature "La/B<TT;>.I;" :=
    ⟨.ofField (.object (.inner parameterized "I" .none)), by decide +kernel, by decide +kernel,
      List.forall_mem_nil _⟩
  have hlocal : IsSignature "TT;" :=
    ⟨.ofField (.typeVariable "T"), by decide +kernel, by decide +kernel, List.forall_mem_nil _⟩
  have hsignatures : ∀ s ∈ naming.signatures, IsSignature s := by
    have hlist : naming.signatures = ["<T:>La/B<TT;>;La/C;", "La/B<TT;>.I;", "TT;"] := rfl
    rw [hlist, List.forall_mem_cons, List.forall_mem_cons, List.forall_mem_singleton]
    exact ⟨hclass, hfield, hlocal⟩
  have hrename := ClassTree.renamings_compose lasting_packed hnested hname hsignatures
  refine ⟨lasting_packed, hnested, hname, hsignatures, hrename, ?_⟩
  decide +kernel

end Crosswalk
