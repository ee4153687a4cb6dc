import Crosswalk.Proofs.Renaming.Stability

/-!
# References link

A class mentions a field or a method of another class by owner, name and descriptor, and finds it
where the other class declares a member under that name and descriptor. Mentions are renamed in the
pool of the one class, declarations among the members of the other, each class by itself. Both go by
the same renaming, so what was found before is found afterwards (`ClassTree.references_link`).
-/

namespace Crosswalk

open PoolBuilder

namespace ClassTree

variable {r : Renaming} {a c m : ClassTree} {input out : Bytes}

/-! ## Declarations -/

/-- A member of a class, as it is mentioned. -/
def member (c : ClassTree) (name descriptor : String) : MemberRef :=
  ⟨c.name, name, descriptor⟩

/-- The fields that a class declares, in order and as they are mentioned. -/
def declaredFields (c : ClassTree) : List MemberRef :=
  c.fields.map fun f => c.member f.name f.descriptor

/-- The methods that a class declares, in order and as they are mentioned. -/
def declaredMethods (c : ClassTree) : List MemberRef :=
  c.methods.map fun m => c.member m.name m.descriptor

/-- A mention with its new names is the mention of a member of the class with its new names, unless
the class has the name of an array. -/
theorem member_rename (r : Renaming) (hname : Descriptor.isArray c.name = false)
    (name descriptor new : String) : r.member (c.member name descriptor) new =
      (c.rename r).member new (r.descriptor descriptor) := by
  have howner : r.classConstant c.name = r.type c.name := by
    rw [Renaming.classConstant, Descriptor.mapConstant, hname]
    rfl
  rw [Renaming.member, member, member, name_rename, howner]

/-- The fields are declared under their new names. -/
theorem declaredFields_rename (r : Renaming) (hname : Descriptor.isArray c.name = false) :
    (c.rename r).declaredFields = c.declaredFields.map fun m => r.member m (r.field m) := by
  rw [declaredFields, declaredFields, List.map_map, ClassTree.rename, List.map_map]
  exact List.map_congr_left fun f _ => (member_rename r hname ..).symm

theorem declaredMethods_rename (r : Renaming) (hname : Descriptor.isArray c.name = false) :
    (c.rename r).declaredMethods = c.declaredMethods.map fun m => r.member m (r.method m) := by
  rw [declaredMethods, declaredMethods, List.map_map, ClassTree.rename, List.map_map]
  exact List.map_congr_left fun m _ => (member_rename r hname ..).symm

/-- More constants make no difference to what a class declares. -/
theorem Extends.declares (h : m.Extends c) :
    m.declaredFields = c.declaredFields ∧ m.declaredMethods = c.declaredMethods := by
  rw [h.same]
  exact ⟨rfl, rfl⟩

/-! ## Written with new names -/

/-- The class is read from bytes and written with its new names, which have room in the fields that
announce their lengths. -/
structure Renamed (r : Renaming) (input : Bytes) (c : ClassTree) (out : Bytes) : Prop where
  read : decode input = .ok c
  texts : ∀ text ∈ (c.rename r).texts, Modified.Fits text
  lists : (c.rename r).ListsFit
  bodies : input.length < 4294967296 ∨ (c.rename r).BodiesFit
  written : encode (c.rename r) = .ok out

namespace Renamed

/-- There is room in all its fields. -/
theorem fits (h : Renamed r input c out) : (c.rename r).Fits := by
  refine ⟨h.texts, attributesFit_iff.2 ⟨h.lists, ?_⟩⟩
  rcases h.bodies with hlength | hbodies
  · exact bodiesFit_rename.2 (bodiesFit_of_decode h.read hlength)
  · exact hbodies

/-- What was written is read as the class with its new names, each entry in its old slot. -/
theorem exists_decode (h : Renamed r input c out) : ∃ m, decode out = .ok m ∧
    m.Extends (c.rename r) ∧ ∀ {slot e}, c.constants.find? slot = some e →
      m.constants.find? slot = some (e.rename r) := by
  have hregular := regular_of_decode h.read
  obtain ⟨-, m, -, -, hm, hextends⟩ := exists_decode_of_fits (hregular.rename r) h.fits h.written
  exact ⟨m, hm, hextends, hextends.find?_rename⟩

end Renamed

/-! ## Linking -/

/-- Two classes that are written with their new names, each by itself, link as before. Where the
pool of the one mentions a field or a method that the other one declares, the same slot mentions the
same declaration afterwards, under the owner, the name and the descriptor that it has by then. -/
theorem references_link {input' out' : Bytes} (ha : Renamed r input a out)
    (hc : Renamed r input' c out') (hname : Descriptor.isArray c.name = false) :
    ∃ a' c', decode out = .ok a' ∧ decode out' = .ok c' ∧
      (∀ slot m, a.constants.find? slot = some (.fieldRef m) →
        ∀ i : Nat, c.declaredFields[i]? = some m → ∃ m', c'.declaredFields[i]? = some m' ∧
          a'.constants.find? slot = some (.fieldRef m')) ∧
      ∀ slot m ofInterface, a.constants.find? slot = some (.methodRef m ofInterface) →
        ∀ i : Nat, c.declaredMethods[i]? = some m → ∃ m', c'.declaredMethods[i]? = some m' ∧
          a'.constants.find? slot = some (.methodRef m' ofInterface) := by
  obtain ⟨a', ha', -, hslots⟩ := ha.exists_decode
  obtain ⟨c', hc', hextends, -⟩ := hc.exists_decode
  obtain ⟨hfields, hmethods⟩ := hextends.declares
  -- Mention and declaration meet at the new mention, which only depends on the old one.
  refine ⟨a', c', ha', hc', fun slot m hm i hi => ?_, fun slot m ofInterface hm i hi => ?_⟩
  · refine ⟨r.member m (r.field m), ?_, hslots hm⟩
    rw [hfields, declaredFields_rename r hname, List.getElem?_map, hi]
    rfl
  · refine ⟨r.member m (r.method m), ?_, hslots hm⟩
    rw [hmethods, declaredMethods_rename r hname, List.getElem?_map, hi]
    rfl

/-! ## A class that calls itself -/

/-- The class `A` that calls a method of its own, and declares it. -/
def declaring (method : String) : ClassTree :=
  { calling method with methods := [⟨.known _ 0x401, method, "()V", ⟨none, [], [], []⟩, none⟩] }

/-- The bytes of the class that declares `m`. -/
def declaringBytes : Bytes :=
  [0xCA, 0xFE, 0xBA, 0xBE, 0, 0, 0, 52, 0, 9, 1, 0, 1, 65, 7, 0, 1, 1, 0, 1, 66, 7, 0, 3,
    1, 0, 1, 109, 1, 0, 3, 40, 41, 86, 12, 0, 5, 0, 6, 10, 0, 2, 0, 7,
    0, 0x21, 0, 2, 0, 4, 0, 0, 0, 0, 0, 1, 4, 1, 0, 5, 0, 6, 0, 0, 0, 0]

/-- The bytes are those of the class that declares `m`. -/
theorem decode_declaring : decode declaringBytes = .ok (declaring "m") := by cbv

/-- The method gets the name `n`. -/
def renameMethod : Renaming :=
  { Renaming.identity with method := fun _ => "n" }

/-- Only the method gets another name. -/
theorem rename_declaring : (declaring "m").rename renameMethod = declaring "n" := by
  have hcalling : (calling "m").rename renameMethod = calling "n" := rename_calling fun _ => rfl
  have hdescriptor : renameMethod.descriptor "()V" = "()V" := by cbv
  rw [declaring, declaring, ← hcalling]
  simp only [ClassTree.rename, MethodTree.rename, Metadata.rename, hdescriptor, calling, bare,
    List.map_cons, List.map_nil, Option.map_none]
  rfl

/-- What the class is built from: its names, and those of its method. -/
def buildDeclaring (method : String) : Build ((Index × Index) × Index × Index) := do
  let slots ← buildNames "A" (some "B") (declaring method).constants
  let name ← text method
  let descriptor ← text "()V"
  pure (slots, name, descriptor)

/-- The file of the class, with the slots of its names. -/
def declaringFile (slots : (Index × Index) × Index × Index) (constants : ConstantPool) :
    ClassFile :=
  { ClassFile.bare slots.1.1 slots.1.2 constants with
    methods := [⟨.known _ 0x401, slots.2.1, slots.2.2, []⟩] }

/-- The class is written by building its names and those of its method. -/
theorem encode_declaring (method : String) : encode (declaring method) = (do
    let (slots, built) ← (buildDeclaring method).run .empty
    pure (declaringFile slots built.constants).bytes) := by
  rw [encode, toFile, build_eq, buildBody, buildDeclaring, buildNames]
  simp only [declaring, calling, bare, MethodTree.toMember, Metadata.toAttributes,
    Attribute.buildIfSome, Attribute.buildUnlessEmpty, List.mapM_nil, List.mapM_cons,
    List.isEmpty_nil, if_true, pure_bind, bind_assoc, StateT.run_bind, StateT.run_pure,
    List.append_nil]
  rfl

/-- The class that declares `n` is written with two constants more. -/
theorem encode_declaring_new : encode (declaring "n") =
    .ok (declaringFile ((2, 4), 9, 6) callingNewPool).bytes := by
  have hcall : ∀ a b c d e f g h i j x : Constant,
      (⟨#[(1, a), (2, b), (3, c), (4, d), (5, e), (6, f), (7, g), (8, h), (9, i), (10, j)], 11⟩ :
        ConstantPool).set 8 x =
        ⟨#[(1, a), (2, b), (3, c), (4, d), (5, e), (6, f), (7, g), (8, x), (9, i), (10, j)], 11⟩ := by
    intro a b c d e f g h i j x
    cbv
  rw [encode_declaring, callingNewPool]
  simp [buildDeclaring, declaring, calling, bare, buildNames, seed, Slots.ofList, Slots.toList,
    reserve, push, holding, settleShared, settlePointing, text, className, classAt, pair, pairAt,
    sharePair, shareClass, settle, StateT.bind, StateT.run, bind, pure, StateT.pure, Except.bind,
    Except.pure, empty, Slots.startingAt, Slots.push, Wide.width, Constant.width, Entry.width,
    slotLimit, superSlot, Std.HashMap.getElem_insertIfNew, Std.HashMap.getElem_insert, set_calling,
    hcall]

/-- The class can be read, and written with its new name. -/
theorem renamed_declaring : Renamed renameMethod declaringBytes (declaring "m")
    (declaringFile ((2, 4), 9, 6) callingNewPool).bytes where
  read := decode_declaring
  texts := by
    rw [rename_declaring]
    unfold Modified.Fits
    decide +kernel
  lists := by
    rw [rename_declaring]
    constructor <;> simp [declaring, calling, bare, metadatas]
  bodies := .inl (by decide)
  written := by rw [rename_declaring, encode_declaring_new]

/-- The class calls `n` once its method is called so. -/
theorem references_link_declaring :
    Renamed renameMethod declaringBytes (declaring "m")
      (declaringFile ((2, 4), 9, 6) callingNewPool).bytes ∧
    Descriptor.isArray (declaring "m").name = false ∧
    (declaring "m").constants.find? 8 = some (.methodRef ⟨"A", "m", "()V"⟩ false) ∧
    (declaring "m").declaredMethods[0]? = some ⟨"A", "m", "()V"⟩ ∧
    ∃ c' m', decode (declaringFile ((2, 4), 9, 6) callingNewPool).bytes = .ok c' ∧
      c'.declaredMethods[0]? = some m' ∧ c'.constants.find? 8 = some (.methodRef m' false) := by
  have hname : Descriptor.isArray (declaring "m").name = false := by decide
  have hmention :
      (declaring "m").constants.find? 8 = some (.methodRef ⟨"A", "m", "()V"⟩ false) := by
    cbv
  have hdeclared : (declaring "m").declaredMethods[0]? = some ⟨"A", "m", "()V"⟩ := rfl
  obtain ⟨a', c', ha', hc', -, hmethods⟩ :=
    references_link renamed_declaring renamed_declaring hname
  cases ha'.symm.trans hc'
  obtain ⟨m', hm', hslot⟩ := hmethods 8 _ false hmention 0 hdeclared
  exact ⟨renamed_declaring, hname, hmention, hdeclared, a', m', ha', hm', hslot⟩

end ClassTree

end Crosswalk
