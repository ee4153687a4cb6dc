import Crosswalk.Proofs.ClassTree.Annotations
import Crosswalk.Proofs.ClassTree.Bare
import Crosswalk.Proofs.Names.Descriptors
import Crosswalk.Proofs.Signature.Copying

/-!
# Classes with the names from before

Nothing tells whether a text is a descriptor, so what becomes of a class without new names depends
on what is done with texts that are none. Signatures and names are copied whatever they look like,
and so are descriptors, but one that leaves a name open gets a semicolon. So a class is as it was
exactly if none of its descriptors leaves a name open (`ClassTree.rename_identity_iff`).
-/

namespace Crosswalk

open Descriptor (Closed inConstant mapConstant_id_eq_self_iff map_id_eq_self_iff)

/-- A change of items changes the list unless it leaves every item as it is. -/
theorem map_eq_self_iff {α : Type} {f : α → α} {l : List α} :
    l.map f = l ↔ ∀ a ∈ l, f a = a := by
  have h := List.map_eq_map_iff (f := f) (l := l) (g := id)
  rwa [List.map_id] at h

/-- A list stays as it is by what its items hold, if each item does. -/
theorem map_eq_self_iff_flatMap {α β : Type} {f : α → α} {held : α → List β} {p : β → Prop}
    (h : ∀ a, f a = a ↔ ∀ b ∈ held a, p b) {l : List α} :
    l.map f = l ↔ ∀ b ∈ l.flatMap held, p b := by
  rw [map_eq_self_iff, List.forall_mem_flatMap]
  exact forall₂_congr fun a _ => h a

/-! ## Annotations -/

/-- The descriptor in a piece of an annotation. -/
def Piece.descriptor? : Piece → Option String
  | descriptor text => some text
  | _ => none

/-- The descriptors in an annotation, at any depth. -/
def Annotation.descriptors (a : Annotation) : List String :=
  a.pieces.filterMap Piece.descriptor?

section Annotations

variable {f : String → String}

/-- A change of descriptors leaves those as they are that are among the pieces. -/
def KeepsIn (f : String → String) (pieces : List Piece) : Prop :=
  ∀ d ∈ pieces.filterMap Piece.descriptor?, f d = d

@[simp] theorem keepsIn_nil : KeepsIn f [] := List.forall_mem_nil _

/-- Pieces are kept if the first one is and the others are. -/
theorem keepsIn_cons {piece : Piece} {l : List Piece} :
    KeepsIn f (piece :: l) ↔ (∀ d ∈ piece.descriptor?, f d = d) ∧ KeepsIn f l := by
  cases piece <;> simp [KeepsIn, Piece.descriptor?]

@[simp] theorem keepsIn_append {l m : List Piece} :
    KeepsIn f (l ++ m) ↔ KeepsIn f l ∧ KeepsIn f m := by
  unfold KeepsIn
  rw [List.filterMap_append, List.forall_mem_append]

mutual

/-- A change of descriptors changes an annotation unless it leaves every descriptor as it is. -/
theorem Annotation.map_eq_self_iff_keepsIn : ∀ a : Annotation, a.map f = a ↔ KeepsIn f a.pieces
  | .mk type elements => by
    simp [keepsIn_cons, Piece.descriptor?, Annotation.map, Annotation.pieces,
      Element.mapAll_eq_self_iff elements]

/-- Elements stay the same if all their descriptors do. -/
theorem Element.mapAll_eq_self_iff :
    ∀ l : List Element, Element.mapAll f l = l ↔ KeepsIn f (Element.piecesAll l)
  | [] => by simp [Element.mapAll, Element.piecesAll]
  | element :: rest => by
    simp [Element.mapAll, Element.piecesAll, Element.map_eq_self_iff element,
      Element.mapAll_eq_self_iff rest]

theorem Element.map_eq_self_iff : ∀ e : Element, e.map f = e ↔ KeepsIn f e.pieces
  | .mk name value => by
    simp [Element.map, Element.pieces, keepsIn_cons, Piece.descriptor?,
      ElementValue.map_eq_self_iff value]

theorem ElementValue.map_eq_self_iff : ∀ v : ElementValue, v.map f = v ↔ KeepsIn f v.pieces
  | .const tag index => by
    simp [ElementValue.map, ElementValue.pieces, keepsIn_cons, Piece.descriptor?]
  | .enum descriptor name => by
    simp [ElementValue.map, ElementValue.pieces, keepsIn_cons, Piece.descriptor?]
  | .classInfo descriptor => by
    simp [ElementValue.map, ElementValue.pieces, keepsIn_cons, Piece.descriptor?]
  | .nested value => by
    simp [ElementValue.map, ElementValue.pieces, keepsIn_cons, Piece.descriptor?,
      Annotation.map_eq_self_iff_keepsIn value]
  | .array values => by
    simp [ElementValue.map, ElementValue.pieces, keepsIn_cons, Piece.descriptor?,
      ElementValue.mapAll_eq_self_iff values]

theorem ElementValue.mapAll_eq_self_iff :
    ∀ l : List ElementValue, ElementValue.mapAll f l = l ↔ KeepsIn f (ElementValue.piecesAll l)
  | [] => by simp [ElementValue.mapAll, ElementValue.piecesAll]
  | value :: rest => by
    simp [ElementValue.mapAll, ElementValue.piecesAll, ElementValue.map_eq_self_iff value,
      ElementValue.mapAll_eq_self_iff rest]

end

theorem Annotation.map_eq_self_iff (a : Annotation) : a.map f = a ↔ ∀ d ∈ a.descriptors, f d = d :=
  a.map_eq_self_iff_keepsIn

end Annotations

/-! ## Frames -/

section Frames

variable {f : String → String}

/-- A type stays the same if its class does. -/
theorem VerificationType.map_eq_self_iff (t : VerificationType String) :
    t.map f = t ↔ ∀ name ∈ t.texts, f name = name := by
  cases t <;> simp [map, texts]

/-- A change of classes changes a frame unless it leaves every class as it is. -/
theorem Frame.map_eq_self_iff (frame : Frame String) :
    frame.map f = frame ↔ ∀ name ∈ frame.texts, f name = name := by
  have hlist : ∀ ts : List (VerificationType String), (ts.map fun t => t.map f) = ts ↔
      ∀ name ∈ ts.flatMap VerificationType.texts, f name = name := fun ts =>
    map_eq_self_iff_flatMap VerificationType.map_eq_self_iff
  cases frame with
  | same delta => simp [map, texts]
  | oneItem delta item => simp [map, texts, item.map_eq_self_iff]
  | chop delta count => simp [map, texts]
  | append delta locals => simp only [map, texts, append.injEq, true_and, hlist]
  | full delta locals stack =>
    simp only [map, texts, full.injEq, true_and, hlist, List.forall_mem_append]

end Frames

/-! ## Classes -/

/-- The descriptors in an entry. -/
def Entry.descriptors : Entry → List String
  | className name => inConstant name
  | fieldRef m | methodRef m _ => inConstant m.owner ++ [m.descriptor]
  | nameAndType _ d | methodType d | dynamic _ _ d | invokeDynamic _ _ d => [d]
  | _ => []

/-- The descriptors in a method body. -/
def Code.descriptors (code : Code) : List String :=
  (code.frames.toList.flatten.flatMap fun frame => frame.texts.flatMap inConstant) ++
    code.locals.map LocalVariable.type

/-- The descriptors in the annotations. -/
def Metadata.descriptors (m : Metadata) : List String :=
  m.visible.flatMap Annotation.descriptors ++ m.invisible.flatMap Annotation.descriptors

/-- The descriptors of a field and in its annotations. -/
def FieldTree.descriptors (f : FieldTree) : List String :=
  f.descriptor :: f.metadata.descriptors

/-- The descriptors of a method, in its annotations and in its body. -/
def MethodTree.descriptors (m : MethodTree) : List String :=
  m.descriptor :: (m.metadata.descriptors ++ m.code.toList.flatMap Code.descriptors)

/-- Every descriptor in a class. -/
def ClassTree.descriptors (c : ClassTree) : List String :=
  c.fields.flatMap FieldTree.descriptors ++ c.methods.flatMap MethodTree.descriptors ++
    c.metadata.descriptors ++ c.constants.toList.flatMap fun item => item.2.descriptors

namespace Renaming

/-- Without other names a signature is copied. -/
theorem signature_identity : identity.signature = id := by
  funext s
  have h := Signature.join_emitted .start s.toList
  rw [signature, Signature.map, Signature.pieces]
  exact h.trans (by simp [Signature.State.pending?])

/-- The identity keeps a descriptor in which no name is left open. -/
theorem descriptor_identity_iff {d : String} : identity.descriptor d = d ↔ Closed d :=
  map_id_eq_self_iff

/-- It keeps a class constant in which none is. -/
theorem classConstant_identity_iff {name : String} :
    identity.classConstant name = name ↔ ∀ d ∈ inConstant name, Closed d :=
  mapConstant_id_eq_self_iff

end Renaming

open Renaming (identity signature_identity descriptor_identity_iff classConstant_identity_iff)

/-- It keeps an entry in whose descriptors none is. -/
theorem Entry.rename_identity_iff (e : Entry) :
    e.rename identity = e ↔ ∀ d ∈ e.descriptors, Closed d := by
  have hmember : ∀ m : MemberRef, identity.member m m.name = m ↔
      ∀ d ∈ inConstant m.owner ++ [m.descriptor], Closed d := by
    intro m
    rw [Renaming.member, List.forall_mem_append, List.forall_mem_singleton,
      ← classConstant_identity_iff, ← descriptor_identity_iff]
    cases m
    simp
  cases e with
  | className name => simp [rename, descriptors, classConstant_identity_iff]
  | fieldRef m =>
    rw [rename, fieldRef.injEq]
    exact hmember m
  | methodRef m ofInterface =>
    rw [rename, methodRef.injEq, and_iff_left rfl]
    exact hmember m
  | nameAndType name d => simp [rename, descriptors, descriptor_identity_iff]
  | methodType d => simp [rename, descriptors, descriptor_identity_iff]
  | dynamic bootstrap name d => simp [rename, descriptors, descriptor_identity_iff]
  | invokeDynamic bootstrap name d => simp [rename, descriptors, descriptor_identity_iff]
  | _ => simp [rename, descriptors]

theorem Code.rename_identity_iff (code : Code) :
    code.rename identity = code ↔ ∀ d ∈ code.descriptors, Closed d := by
  have hframe : ∀ frame : Frame String, frame.map identity.classConstant = frame ↔
      ∀ d ∈ frame.texts.flatMap inConstant, Closed d := by
    intro frame
    rw [frame.map_eq_self_iff, List.forall_mem_flatMap]
    exact forall₂_congr fun name _ => classConstant_identity_iff
  have hlocal : ∀ v : LocalVariable, v.mapType identity.descriptor = v ↔ Closed v.type := by
    intro v
    rw [← descriptor_identity_iff]
    cases v
    simp [LocalVariable.mapType]
  -- Signatures are copied, whatever they look like.
  have htypes : code.localTypes.map (fun v => v.mapType identity.signature) = code.localTypes := by
    rw [map_eq_self_iff, signature_identity]
    exact fun v _ => rfl
  have hlocals : code.locals.map (fun v => v.mapType identity.descriptor) = code.locals ↔
      ∀ d ∈ code.locals.map LocalVariable.type, Closed d := by
    rw [map_eq_self_iff, List.forall_mem_map]
    exact forall₂_congr fun v _ => hlocal v
  have hframes : (code.frames.map fun frames => frames.map fun frame =>
      frame.map identity.classConstant) = code.frames ↔
      ∀ d ∈ code.frames.toList.flatten.flatMap fun frame => frame.texts.flatMap inConstant,
        Closed d := by
    cases code.frames with
    | none => simp
    | some frames =>
      rw [Option.map_some, Option.some_inj, Option.toList_some, List.flatten_singleton]
      exact map_eq_self_iff_flatMap hframe
  rw [descriptors, List.forall_mem_append, ← hframes, ← hlocals, rename, htypes]
  cases code
  simp

theorem Metadata.rename_identity_iff (m : Metadata) :
    m.rename identity = m ↔ ∀ d ∈ m.descriptors, Closed d := by
  have hlist : ∀ as : List Annotation, as.map (fun a => a.map identity.descriptor) = as ↔
      ∀ d ∈ as.flatMap Annotation.descriptors, Closed d := by
    intro as
    refine map_eq_self_iff_flatMap fun a => ?_
    rw [a.map_eq_self_iff]
    exact forall₂_congr fun d _ => descriptor_identity_iff
  rw [descriptors, List.forall_mem_append, ← hlist, ← hlist, rename, signature_identity]
  cases m
  simp

theorem FieldTree.rename_identity_iff (owner : String) (f : FieldTree) :
    f.rename identity owner = f ↔ ∀ d ∈ f.descriptors, Closed d := by
  rw [descriptors, List.forall_mem_cons, ← descriptor_identity_iff,
    ← f.metadata.rename_identity_iff,
    rename]
  cases f
  simp [identity]

theorem MethodTree.rename_identity_iff (owner : String) (m : MethodTree) :
    m.rename identity owner = m ↔ ∀ d ∈ m.descriptors, Closed d := by
  have hcode : (m.code.map fun code => code.rename identity) = m.code ↔
      ∀ d ∈ m.code.toList.flatMap Code.descriptors, Closed d := by
    rw [List.forall_mem_flatMap]
    cases m.code with
    | none => simp
    | some code => simp [code.rename_identity_iff]
  rw [descriptors, List.forall_mem_cons, List.forall_mem_append, ← descriptor_identity_iff,
    ← m.metadata.rename_identity_iff, ← hcode, rename]
  cases m
  simp [identity]

/-- Without other names, a class is as it was exactly if none of its descriptors leaves a name
open. -/
theorem ClassTree.rename_identity_iff (c : ClassTree) :
    c.rename identity = c ↔ ∀ d ∈ c.descriptors, Closed d := by
  have hfields : c.fields.map (fun f => f.rename identity c.name) = c.fields ↔
      ∀ d ∈ c.fields.flatMap FieldTree.descriptors, Closed d :=
    map_eq_self_iff_flatMap (FieldTree.rename_identity_iff c.name)
  have hmethods : c.methods.map (fun m => m.rename identity c.name) = c.methods ↔
      ∀ d ∈ c.methods.flatMap MethodTree.descriptors, Closed d :=
    map_eq_self_iff_flatMap (MethodTree.rename_identity_iff c.name)
  have hconstants : c.constants.map (·.rename identity) (Entry.width_rename _) = c.constants ↔
      ∀ d ∈ c.constants.toList.flatMap fun item => item.2.descriptors, Closed d := by
    have hitem : ∀ item : Nat × Entry, (item.1, item.2.rename identity) = item ↔
        ∀ d ∈ item.2.descriptors, Closed d := by
      intro item
      rw [← item.2.rename_identity_iff]
      exact ⟨fun h => congrArg Prod.snd h, fun h => Prod.ext rfl h⟩
    rw [← map_eq_self_iff_flatMap hitem, ← EntryPool.toList_map _ (Entry.width_rename _)]
    exact ⟨fun h => congrArg (·.toList) h, fun h => EntryPool.ext_toList h⟩
  rw [descriptors, List.forall_mem_append, List.forall_mem_append, List.forall_mem_append,
    ← hfields, ← hmethods, ← hconstants, ← c.metadata.rename_identity_iff, rename]
  cases c
  simp [identity, and_assoc]

/-- What stays without other names. A class is as it was exactly if each `L` in its descriptors has
a semicolon behind it. A text that is taken for a descriptor, whether it is one or not, gets a
semicolon at its end otherwise, and one that is taken for a signature is always copied. -/
theorem unchanged_iff (c : ClassTree) (text : String) :
    (c.rename identity = c ↔ ∀ d ∈ c.descriptors, Closed d) ∧
      (Closed text → Descriptor.map id text = text) ∧
      (¬ Closed text → Descriptor.map id text = text ++ ";") ∧
      (Descriptor.mapConstant id text = text ↔ ∀ d ∈ inConstant text, Closed d) ∧
      Signature.map id text = text := by
  obtain ⟨hclosed, hopen⟩ := Descriptor.map_id text
  have hconstant : Descriptor.mapConstant id text = text ↔ ∀ d ∈ inConstant text, Closed d :=
    mapConstant_id_eq_self_iff
  have hsignature : Signature.map id text = text := congrFun signature_identity text
  exact ⟨c.rename_identity_iff, hclosed, hopen, hconstant, hsignature⟩

/-- The class `A` with a field of the given descriptor. -/
def ClassTree.holding (descriptor : String) : ClassTree :=
  { bare "A" (some "B")
      (.ofList [.utf8 "A", .className "A", .utf8 "B", .className "B", .utf8 "x", .utf8 "La"]) with
    fields := [⟨.known _ 0, "x", descriptor, ⟨none, [], [], []⟩⟩] }

/-- The bytes of that class if the descriptor is `La`. -/
def holdingBytes : Bytes :=
  [0xCA, 0xFE, 0xBA, 0xBE, 0, 0, 0, 52, 0, 7, 1, 0, 1, 65, 7, 0, 1, 1, 0, 1, 66, 7, 0, 3,
    1, 0, 1, 120, 1, 0, 2, 76, 97, 0, 0x21, 0, 2, 0, 4, 0, 0, 0, 1, 0, 0, 0, 5, 0, 6, 0, 0,
    0, 0, 0, 0]

/-- The class can be read, and its field gets another descriptor without another name. -/
theorem changed_without_names :
    decode holdingBytes = .ok (.holding "La") ∧
      (ClassTree.holding "La").rename identity = .holding "La;" ∧
      (ClassTree.holding "La").rename identity ≠ .holding "La" ∧
      Descriptor.map id "La" = "La;" ∧ Descriptor.mapConstant id "[La" = "[La;" := by
  have hread : decode holdingBytes = .ok (.holding "La") := by cbv
  have hrename : (ClassTree.holding "La").rename identity = .holding "La;" := by cbv
  have hne : (ClassTree.holding "La;").fields.map FieldTree.descriptor ≠
      (ClassTree.holding "La").fields.map FieldTree.descriptor := by decide
  refine ⟨hread, hrename, ?_, by cbv, by cbv⟩
  rw [hrename]
  exact fun h => hne (congrArg (fun c => c.fields.map FieldTree.descriptor) h)

end Crosswalk
