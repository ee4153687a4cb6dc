import Crosswalk.Proofs.ClassTree.Overflow
import Crosswalk.Proofs.Renaming.Shape

/-!
# Slots are stable

Bytecode and opaque attributes point at constants by slot, and are carried along as they are. They
go on pointing at what they should because a class with new names, once it has been written and read
again, has in every slot the counterpart of the entry that was there.
-/

namespace Crosswalk

/-! ## Counterparts -/

/-- An entry that mentions neither a class nor a descriptor, or mentions them for no linker. -/
def Entry.IsLiteral : Entry → Prop
  | .utf8 _ | .rawUtf8 _ | .integer _ | .float _ | .long _ | .double _ | .string _ | .rawString _
  | .methodHandle _ _ | .moduleName _ | .packageName _ => True
  | .className _ | .fieldRef _ | .methodRef _ _ | .nameAndType _ _ | .methodType _ | .dynamic _ _ _
  | .invokeDynamic _ _ _ => False

/-- The second entry is what the first one becomes under new names. Members are asked for by their
old owner, name and descriptor. -/
inductive Entry.Counterpart (r : Renaming) : Entry → Entry → Prop
  | literal {e : Entry} (h : e.IsLiteral) : Counterpart r e e
  | className (name : String) :
    Counterpart r (.className name) (.className (Descriptor.mapConstant r.type name))
  | fieldRef (owner name descriptor : String) :
    Counterpart r (.fieldRef ⟨owner, name, descriptor⟩)
      (.fieldRef ⟨Descriptor.mapConstant r.type owner, r.field ⟨owner, name, descriptor⟩,
        Descriptor.map r.type descriptor⟩)
  | methodRef (owner name descriptor : String) (ofInterface : Bool) :
    Counterpart r (.methodRef ⟨owner, name, descriptor⟩ ofInterface)
      (.methodRef ⟨Descriptor.mapConstant r.type owner, r.method ⟨owner, name, descriptor⟩,
        Descriptor.map r.type descriptor⟩ ofInterface)
  | nameAndType (name descriptor : String) :
    Counterpart r (.nameAndType name descriptor)
      (.nameAndType name (Descriptor.map r.type descriptor))
  | methodType (descriptor : String) :
    Counterpart r (.methodType descriptor) (.methodType (Descriptor.map r.type descriptor))
  | dynamic (bootstrap : UInt16) (name descriptor : String) :
    Counterpart r (.dynamic bootstrap name descriptor)
      (.dynamic bootstrap name (Descriptor.map r.type descriptor))
  | invokeDynamic (bootstrap : UInt16) (name descriptor : String) :
    Counterpart r (.invokeDynamic bootstrap name descriptor)
      (.invokeDynamic bootstrap name (Descriptor.map r.type descriptor))

/-- Every entry becomes its counterpart. -/
theorem Entry.counterpart_rename (r : Renaming) (e : Entry) : Counterpart r e (e.rename r) := by
  cases e with
  | className name => exact .className name
  | fieldRef m => exact .fieldRef m.owner m.name m.descriptor
  | methodRef m ofInterface => exact .methodRef m.owner m.name m.descriptor ofInterface
  | nameAndType name descriptor => exact .nameAndType name descriptor
  | methodType descriptor => exact .methodType descriptor
  | dynamic bootstrap name descriptor => exact .dynamic bootstrap name descriptor
  | invokeDynamic bootstrap name descriptor => exact .invokeDynamic bootstrap name descriptor
  | _ => exact .literal trivial

/-! ## What points at slots -/

/-- What a body has by slot: its bytecode, its handlers, and the attributes that are not picked
apart. -/
def Code.slotted (code : Code) : Bytes × List Handler × List OpaqueAttribute :=
  (code.bytecode, code.handlers, code.attributes)

/-- What metadata have by slot: the attributes that are not picked apart, and the constants in
annotations. -/
def Metadata.slotted (m : Metadata) :
    List OpaqueAttribute × List (List (UInt8 × Index)) × List (List (UInt8 × Index)) :=
  (m.attributes, m.visible.map Annotation.consts, m.invisible.map Annotation.consts)

namespace ClassTree

/-- The other class has the same bytecode, handlers, opaque attributes and constants in annotations,
of the class and of its members one by one. -/
structure SameSlotted (m c : ClassTree) : Prop where
  fields : m.fields.map (·.metadata.slotted) = c.fields.map (·.metadata.slotted)
  methods : m.methods.map (fun method => (method.metadata.slotted, method.code.map Code.slotted)) =
    c.methods.map fun method => (method.metadata.slotted, method.code.map Code.slotted)
  metadata : m.metadata.slotted = c.metadata.slotted

end ClassTree

/-- Metadata have the same things by slot under any names. -/
theorem Metadata.slotted_rename (r : Renaming) (m : Metadata) :
    (m.rename r).slotted = m.slotted := by
  have hconsts : ∀ as : List Annotation,
      (as.map fun a => a.map r.descriptor).map Annotation.consts = as.map Annotation.consts := by
    intro as
    rw [List.map_map]
    exact List.map_congr_left fun a _ => a.consts_map r.descriptor
  rw [slotted, slotted, Metadata.rename, hconsts, hconsts]

namespace ClassTree

theorem sameSlotted_rename (r : Renaming) (c : ClassTree) : (c.rename r).SameSlotted c := by
  refine ⟨?_, ?_, c.metadata.slotted_rename r⟩
  · rw [ClassTree.rename, List.map_map]
    exact List.map_congr_left fun f _ => f.metadata.slotted_rename r
  · rw [ClassTree.rename, List.map_map]
    refine List.map_congr_left fun m _ => ?_
    have hcode :
        (m.code.map fun code => code.rename r).map Code.slotted = m.code.map Code.slotted := by
      rw [Option.map_map]
      rfl
    show ((m.metadata.rename r).slotted, _) = _
    rw [Metadata.slotted_rename]
    exact congrArg _ hcode

/-! ## Stable slots -/

/-- What is behind the entries of a class does not move them. -/
theorem Extends.find? {m c : ClassTree} (h : m.Extends c) {slot : Nat} {e : Entry}
    (he : c.constants.find? slot = some e) : m.constants.find? slot = some e := by
  rw [Slots.find?_eq_some_iff m.constants.laidOut]
  rw [Slots.find?_eq_some_iff c.constants.laidOut] at he
  exact h.constants.mem he

/-- What is behind the entries of a class with its new names leaves each of them in the slot of the
old one. -/
theorem Extends.find?_rename {m c : ClassTree} {r : Renaming} (h : m.Extends (c.rename r))
    {slot : Nat} {e : Entry} (he : c.constants.find? slot = some e) :
    m.constants.find? slot = some (e.rename r) := by
  refine h.find? ?_
  rw [Slots.find?_eq_some_iff (c.rename r).constants.laidOut]
  rw [Slots.find?_eq_some_iff c.constants.laidOut] at he
  show (slot, e.rename r) ∈ (c.constants.map (·.rename r) (Entry.width_rename r)).toList
  rw [EntryPool.toList_map]
  exact List.mem_map_of_mem he

/-- The bytes of a class with its new names are read again if every text and every list in it fits
its field: every slot that had an entry has the counterpart of the entry, and nothing that points at
slots has changed. The bytes of annotations fit anyway, unless the class was read from more bytes
than an attribute can have. -/
theorem slots_stable_of_rename {input out : Bytes} {c : ClassTree} {r : Renaming}
    (h : decode input = .ok c) (htexts : ∀ text ∈ (c.rename r).texts, Modified.Fits text)
    (hlists : (c.rename r).ListsFit)
    (hbodies : input.length < 4294967296 ∨ (c.rename r).BodiesFit)
    (hout : encode (c.rename r) = .ok out) :
    ∃ m, decode out = .ok m ∧
      (∀ slot e, c.constants.find? slot = some e →
        ∃ e', m.constants.find? slot = some e' ∧ e.Counterpart r e' ∧ e'.width = e.width) ∧
      m.SameSlotted c := by
  have hc := regular_of_decode h
  have hbodies' : (c.rename r).BodiesFit := by
    rcases hbodies with hlength | hbodies
    · exact bodiesFit_rename.2 (bodiesFit_of_decode h hlength)
    · exact hbodies
  have hfits : (c.rename r).Fits := ⟨htexts, attributesFit_iff.2 ⟨hlists, hbodies'⟩⟩
  obtain ⟨-, m, -, -, hm, hextends⟩ := exists_decode_of_fits (hc.rename r) hfits hout
  refine ⟨m, hm, fun slot e he => ⟨e.rename r, ?_, e.counterpart_rename r, e.width_rename r⟩, ?_⟩
  · exact hextends.find?_rename he
  · obtain ⟨hfields, hmethods, hmetadata⟩ := c.sameSlotted_rename r
    rw [hextends.same]
    exact ⟨hfields, hmethods, hmetadata⟩

/-! ## A class with a body and an annotation -/

/-- A class with a static method that calls itself and catches what its super class stands for. An
annotation of the class has a number. -/
def recursing (name superName method : String) : ClassTree :=
  let descriptor := "(L" ++ name ++ ";)V"
  { bare name (some superName)
      (.ofList [.utf8 "A", .className name, .utf8 "B", .className superName, .utf8 "m",
        .utf8 "(LA;)V", .nameAndType "m" descriptor, .methodRef ⟨name, method, descriptor⟩ false,
        .utf8 "Code", .utf8 "RuntimeVisibleAnnotations", .utf8 "LB;", .utf8 "v", .integer 7]) with
    methods := [⟨.known _ 9, method, descriptor, ⟨none, [], [], []⟩,
      some
        { maxStack := 1
          maxLocals := 1
          bytecode := [42, 184, 0, 8, 177]
          handlers := [⟨0, 4, 4, 4⟩]
          frames := none
          locals := []
          localTypes := []
          attributes := [] }⟩]
    metadata := ⟨none, [.mk ("L" ++ superName ++ ";") [.mk "v" (.const 73 13)]], [], []⟩ }

/-- The bytes of the class with its old names. -/
def recursingBytes : Bytes :=
  [0xCA, 0xFE, 0xBA, 0xBE, 0, 0, 0, 52, 0, 14, 1, 0, 1, 65, 7, 0, 1, 1, 0, 1, 66, 7, 0, 3,
    1, 0, 1, 109, 1, 0, 6, 40, 76, 65, 59, 41, 86, 12, 0, 5, 0, 6, 10, 0, 2, 0, 7,
    1, 0, 4, 67, 111, 100, 101, 1, 0, 25, 82, 117, 110, 116, 105, 109, 101, 86, 105, 115, 105, 98,
    108, 101, 65, 110, 110, 111, 116, 97, 116, 105, 111, 110, 115,
    1, 0, 3, 76, 66, 59, 1, 0, 1, 118, 3, 0, 0, 0, 7,
    0, 0x21, 0, 2, 0, 4, 0, 0, 0, 0, 0, 1,
    0, 9, 0, 5, 0, 6, 0, 1, 0, 9, 0, 0, 0, 25, 0, 1, 0, 1, 0, 0, 0, 5, 42, 184, 0, 8, 177,
    0, 1, 0, 0, 0, 4, 0, 4, 0, 4, 0, 0,
    0, 1, 0, 10, 0, 0, 0, 11, 0, 1, 0, 11, 0, 1, 0, 12, 73, 0, 13]

/-- The file of that class. -/
def recursingFile : ClassFile :=
  { ClassFile.bare 2 4 (.ofList 1 [.utf8 "A", .className 1, .utf8 "B", .className 3, .utf8 "m",
      .utf8 "(LA;)V", .nameAndType 5 6, .methodRef 2 7 false, .utf8 "Code",
      .utf8 "RuntimeVisibleAnnotations", .utf8 "LB;", .utf8 "v", .integer 7]) with
    methods := [⟨.known _ 9, 5, 6, [⟨9,
      [0, 1, 0, 1, 0, 0, 0, 5, 42, 184, 0, 8, 177, 0, 1, 0, 0, 0, 4, 0, 4, 0, 4, 0, 0]⟩]⟩]
    attributes := [⟨10, [0, 1, 0, 11, 0, 1, 0, 12, 73, 0, 13]⟩] }

/-- The bytes are those of the class with its old names. -/
theorem decode_recursing : decode recursingBytes = .ok (recursing "A" "B" "m") := by
  have hfile : ClassFile.ofBytes recursingBytes = .ok recursingFile := by cbv
  have htree : ofFile recursingFile = .ok (recursing "A" "B" "m") := by cbv
  exact bind_eq_ok_iff.2 ⟨recursingFile, hfile, htree⟩

/-- The two classes and the method get new names. -/
def renameThree : Renaming :=
  { renameBoth "X" "Y" with method := fun _ => "n" }

/-- Nothing but names is changed. -/
theorem rename_recursing :
    (recursing "A" "B" "m").rename renameThree = recursing "X" "Y" "n" := by cbv

/-- There is more than enough room in the pool. -/
theorem exists_encode_recursing : ∃ out, encode (recursing "X" "Y" "n") = .ok out := by
  have htaken : (recursing "X" "Y" "n").constants.taken = 13 := by cbv
  have hrequired : (recursing "X" "Y" "n").required.length = 19 := by cbv
  exact exists_encode_of_required (by omega)

/-- There is room for all texts and lists. -/
theorem fits_recursing : (recursing "X" "Y" "n").Fits := by
  have hbody : Annotation.bodySize [.mk "LY;" [.mk "v" (.const 73 13)]] = 11 := rfl
  refine ⟨?_, ?_, ?_, ?_⟩
  · unfold Modified.Fits
    decide +kernel
  · simp [recursing, bare]
  · simp [recursing, bare, MethodTree.Fits, MethodTree.parts, MethodTree.PartFits, Code.Fits,
      Code.parts, Metadata.parts]
  · simp [recursing, bare, Metadata.Fits, Metadata.parts, Metadata.Part.Fits, hbody]

/-- Under the new names the call, the handler and the annotation have the slots that they had, and
in those slots are the method, the super class and the number. -/
theorem slots_stable_of_rename_short :
    decode recursingBytes = .ok (recursing "A" "B" "m") ∧
      (∀ text ∈ ((recursing "A" "B" "m").rename renameThree).texts, Modified.Fits text) ∧
      ((recursing "A" "B" "m").rename renameThree).ListsFit ∧
      recursingBytes.length < 4294967296 ∧
      ∃ out m, encode ((recursing "A" "B" "m").rename renameThree) = .ok out ∧
        decode out = .ok m ∧
        m.constants.find? 8 = some (.methodRef ⟨"X", "n", "(LX;)V"⟩ false) ∧
        m.constants.find? 4 = some (.className "Y") ∧
        m.constants.find? 13 = some (.integer 7) ∧
        m.methods.map (fun method => method.code.map Code.slotted) =
          [some ([42, 184, 0, 8, 177], [⟨0, 4, 4, 4⟩], [])] ∧
        m.metadata.slotted = ([], [[(73, 13)]], []) := by
  have hfits : ((recursing "A" "B" "m").rename renameThree).Fits := by
    rw [rename_recursing]
    exact fits_recursing
  have hlists := (attributesFit_iff.1 hfits.attributes).1
  have hlength : recursingBytes.length < 4294967296 := by decide +kernel
  obtain ⟨out, hout⟩ : ∃ out, encode ((recursing "A" "B" "m").rename renameThree) = .ok out := by
    rw [rename_recursing]
    exact exists_encode_recursing
  obtain ⟨m, hm, hslots, hsame⟩ :=
    slots_stable_of_rename decode_recursing hfits.texts hlists (.inl hlength) hout
  have hcall : (recursing "A" "B" "m").constants.find? 8 =
      some (.methodRef ⟨"A", "m", "(LA;)V"⟩ false) := by cbv
  have hcaught : (recursing "A" "B" "m").constants.find? 4 = some (.className "B") := by cbv
  have hnumber : (recursing "A" "B" "m").constants.find? 13 = some (.integer 7) := by cbv
  refine ⟨decode_recursing, hfits.texts, hlists, hlength, out, m, hout, hm, ?_, ?_, ?_, ?_, ?_⟩
  · obtain ⟨e, he, hcounterpart, -⟩ := hslots 8 _ hcall
    cases hcounterpart with
    | literal h => exact absurd h (by simp [Entry.IsLiteral])
    | methodRef =>
      rw [he]
      cbv
  · obtain ⟨e, he, hcounterpart, -⟩ := hslots 4 _ hcaught
    cases hcounterpart with
    | literal h => exact absurd h (by simp [Entry.IsLiteral])
    | className =>
      rw [he]
      cbv
  · obtain ⟨e, he, hcounterpart, -⟩ := hslots 13 _ hnumber
    cases hcounterpart
    exact he
  · have hmethods := congrArg (List.map Prod.snd) hsame.methods
    rw [List.map_map, List.map_map] at hmethods
    exact hmethods
  · exact hsame.metadata

end ClassTree

end Crosswalk
