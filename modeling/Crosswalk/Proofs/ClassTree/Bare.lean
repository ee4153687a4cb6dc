import Mathlib
import Crosswalk.Patch
import Crosswalk.Proofs.ClassTree.RoundTrip
import Crosswalk.Proofs.Pool.Full
import Crosswalk.Renaming.Tree

/-!
# Classes without members

A public class without fields, methods and attributes consists of its pool, its name and its super
class, so that what becomes of it is decided by what becomes of the pool. The smallest such class
with a super class is followed from its bytes to the bytes it has under any new names
(`ClassTree.decode_smallest`, `ClassTree.encode_smallest`).
-/

namespace Crosswalk

open PoolBuilder

/-- A public class without members. -/
def ClassTree.bare (name : String) (superName : Option String) (constants : EntryPool) :
    ClassTree where
  version := ⟨52, 0⟩
  access := .known _ 0x21
  name := name
  superName := superName
  interfaces := []
  fields := []
  methods := []
  metadata := ⟨none, [], [], []⟩
  constants := constants

/-- The file of a public class without members. -/
def ClassFile.bare (thisClass superClass : Index) (constants : ConstantPool) : ClassFile where
  version := ⟨52, 0⟩
  constants := constants
  access := .known _ 0x21
  thisClass := thisClass
  superClass := superClass
  interfaces := []
  fields := []
  methods := []
  attributes := []

namespace ClassTree

variable {name : String} {superName : Option String} {constants : EntryPool}

/-- Only the two names and the pool are changed in a class without members. -/
theorem rename_bare (r : Renaming) : (bare name superName constants).rename r =
    bare (r.type name) (superName.map r.type) (constants.map (·.rename r) (Entry.width_rename r)) :=
    rfl

/-- There are no annotations, so the class is no mixin. -/
theorem widen_bare (s : Settings) :
    (bare name superName constants).widen s = bare name superName constants := by
  rw [widen, if_neg]
  simp [isMixin, Metadata.hasInvisible, bare]

/-! ## Writing -/

/-- The pool of a class, and the slots of its name and its super class. -/
def buildNames (name : String) (superName : Option String) (constants : EntryPool) :
    Build (Index × Index) := do
  seed constants
  let thisClass ← className name
  let superClass ← superSlot superName
  pure (thisClass, superClass)

/-- A class without members is written by building the names that it has. -/
theorem encode_bare : encode (bare name superName constants) = (do
    let (slots, built) ← (buildNames name superName constants).run .empty
    pure (ClassFile.bare slots.1 slots.2 built.constants).bytes) := by
  rw [encode, toFile, build_eq, buildBody, buildNames]
  simp only [bare, Metadata.toAttributes, Attribute.buildIfSome, Attribute.buildUnlessEmpty,
    List.mapM_nil, List.isEmpty_nil, if_true, pure_bind, bind_assoc, StateT.run_bind,
    StateT.run_pure, List.append_nil]
  rfl

/-! ## Reading -/

/-- The file of a class is read if its pool is, and has the names in their slots. -/
theorem decode_bytes_bare {p : ConstantPool} {thisClass superClass : Index}
    (hregular : p.Regular) (hspelled : ∀ item ∈ p.toList, item.2.Spelled)
    (hconstants : EntryPool.ofPool p = .ok constants) (hname : p.className thisClass = .ok name)
    (hsuper : readSuper p superClass = .ok superName) :
    decode (ClassFile.bare thisClass superClass p).bytes = .ok (bare name superName constants) := by
  have hfile : ClassFile.ofBytes (ClassFile.bare thisClass superClass p).bytes =
      .ok (ClassFile.bare thisClass superClass p) := by
    refine ClassFile.ofBytes_bytes_iff.2 ⟨?_, hspelled⟩
    exact ⟨rfl, hregular, by simp [ClassFile.bare], by simp [ClassFile.bare],
      by simp [ClassFile.bare], by simp [ClassFile.bare], by simp [ClassFile.bare],
      by simp [ClassFile.bare], by simp [ClassFile.bare]⟩
  refine bind_eq_ok_iff.2 ⟨_, hfile, ?_⟩
  rw [ofFile_eq]
  refine bind_eq_ok_iff.2 ⟨_, hconstants, bind_eq_ok_iff.2 ⟨_, hsuper, ?_⟩⟩
  exact map_eq_ok_iff.2 ⟨name, hname, rfl⟩

/-! ## A class and its super class -/

/-- A class `A` that extends `B`, with the given names for both. -/
def smallest (name superName : String) : ClassTree :=
  bare name (some superName)
    (.ofList [.utf8 "A", .className name, .utf8 "B", .className superName])

/-- The bytes of the class with its old names. -/
def smallestBytes : Bytes :=
  [0xCA, 0xFE, 0xBA, 0xBE, 0, 0, 0, 52, 0, 5, 1, 0, 1, 65, 7, 0, 1, 1, 0, 1, 66, 7, 0, 3,
    0, 0x21, 0, 2, 0, 4, 0, 0, 0, 0, 0, 0, 0, 0]

/-- The bytes are those of the class `A`, which extends `B`. -/
theorem decode_smallest : decode smallestBytes = .ok (smallest "A" "B") := by cbv

/-- The class and its super class get new names. -/
def renameBoth (name superName : String) : Renaming :=
  { Renaming.identity with
    type := fun s => if s = "A" then name else if s = "B" then superName else s }

/-- The two names take the places of the old ones. -/
theorem rename_smallest (name superName : String) :
    (smallest "A" "B").rename (renameBoth name superName) = smallest name superName := by cbv

/-- The texts are those of the old names, which stay in the pool, and those of the new ones. -/
theorem texts_smallest (name superName : String) : (smallest name superName).texts =
    ["A", name, "B", superName, name, superName] := rfl

/-- The pool of the class has its new names behind the old ones. -/
def smallestPool (name superName : String) : ConstantPool :=
  .ofList 1 [.utf8 "A", .className 5, .utf8 "B", .className 6, .utf8 name, .utf8 superName]

/-- The new names are spelled in front of what is not in the pool. -/
theorem bytes_smallest (name superName : String) : ∃ more,
    (ClassFile.bare 2 4 (smallestPool name superName)).bytes =
      [0xCA, 0xFE, 0xBA, 0xBE, 0, 0, 0, 52, 0, 7, 1, 0, 1, 65, 7, 0, 5, 1, 0, 1, 66, 7, 0, 6] ++
        ((Constant.utf8 name).bytes ++ ((Constant.utf8 superName).bytes ++ more)) := by
  have hA : (Constant.utf8 "A").bytes = [1, 0, 1, 65] := by cbv
  have hB : (Constant.utf8 "B").bytes = [1, 0, 1, 66] := by cbv
  refine ⟨[0, 0x21, 0, 2, 0, 4, 0, 0, 0, 0, 0, 0, 0, 0], ?_⟩
  simp only [ClassFile.bytes, ClassFile.poolBytes, ClassFile.bare, smallestPool, Slots.ofList,
    Slots.toList, Slots.startingAt, Slots.push, List.foldl_cons, List.foldl_nil, List.push_toArray,
    List.flatMap_cons, List.flatMap_nil, List.nil_append, List.cons_append, List.append_nil,
    List.append_assoc, hA, hB, Wide.width, Constant.width]
  rfl

/-- New names that are none of the old ones get constants of their own. -/
theorem encode_smallest {name superName : String} (h : ["A", "B", name, superName].Nodup) :
    encode (smallest name superName) =
      .ok (ClassFile.bare 2 4 (smallestPool name superName)).bytes := by
  -- The constants of the two classes are put in their places once their texts have slots.
  have hfirst : ∀ a b c d e f : Constant,
      (⟨#[(1, a), (2, b), (3, c), (4, d), (5, e)], 6⟩ : ConstantPool).set 2 f =
        ⟨#[(1, a), (2, f), (3, c), (4, d), (5, e)], 6⟩ := by
    intro a b c d e f
    cbv
  have hsecond : ∀ a b c d e f g : Constant,
      (⟨#[(1, a), (2, b), (3, c), (4, d), (5, e), (6, f)], 7⟩ : ConstantPool).set 4 g =
        ⟨#[(1, a), (2, b), (3, c), (4, g), (5, e), (6, f)], 7⟩ := by
    intro a b c d e f g
    cbv
  simp only [List.nodup_cons, List.mem_cons, List.not_mem_nil, or_false, not_or] at h
  obtain ⟨⟨-, hA, hA'⟩, ⟨hB, hB'⟩, hnew, -⟩ := h
  have hnew' := Ne.symm hnew
  rw [smallest, smallestPool, encode_bare]
  simp [buildNames, seed, Slots.ofList, Slots.toList, reserve, push, holding, settleShared,
    settlePointing, text, className, classAt, shareClass, settle, StateT.bind, StateT.run, bind,
    pure, StateT.pure, Except.bind, Except.pure, empty, Slots.startingAt, Slots.push, Wide.width,
    Constant.width, Entry.width, slotLimit, superSlot, Std.HashMap.getElem_insertIfNew,
    Std.HashMap.getElem_insert, hfirst, hsecond, hA, hA', hB, hB',
    hnew, hnew']

/-! ## A class that fills its pool -/

/-- A pool that is filled up stays so under other names. -/
theorem rename_filled (r : Renaming) (text name : String) (n : Nat) :
    (EntryPool.filled text name n).map (·.rename r) (Entry.width_rename r) =
      EntryPool.filled text (r.classConstant name) n := by
  rw [EntryPool.filled, EntryPool.map_ofList, List.map_cons, List.map_cons,
    List.map_replicate]
  rfl

/-- The file of a class that fills its pool is read like any other. -/
theorem decode_filled {text : String} {n : Nat} (hfits : Modified.Fits text)
    (hn : 3 + n ≤ slotLimit) : decode (ClassFile.bare 2 0 (.filled text n)).bytes =
      .ok (bare text none (.filled text text n)) := by
  obtain ⟨-, -, -, hnext⟩ := ConstantPool.toList_filled text n
  refine decode_bytes_bare ⟨ConstantPool.laidOut_filled text n, ?_, fun item hitem => ?_⟩
    (fun item hitem => ?_) (EntryPool.ofPool_filled text n)
    (ConstantPool.className_filled text n) rfl
  · rw [hnext]
    exact Nat.lt_succ_of_le hn
  · rcases ConstantPool.mem_filled text n hitem with h | h | h <;> rw [h] <;> exact trivial
  · rcases ConstantPool.mem_filled text n hitem with h | h | h <;> rw [h]
    · exact hfits
    · exact trivial
    · exact trivial

/-- Under a new name the class finds no room in a pool. -/
theorem encode_filled {text name : String} {n : Nat} (hne : text ≠ name) (hn : 3 + n = slotLimit) :
    encode (bare name none (.filled text name n)) = .error ⟨.utf8 name, slotLimit⟩ := by
  obtain ⟨l, hlist, hl⟩ := EntryPool.toList_filled text name n
  have hbuild : (buildNames name none (.filled text name n)).run .empty =
      .error ⟨.utf8 name, slotLimit⟩ := bind_of_error (seed_full hne hlist hl hn)
  rw [encode_bare, hbuild]
  rfl

/-! ## A class that calls a method -/

/-- A class `A` that extends `B` and calls a method of its own of the given name. -/
def calling (method : String) : ClassTree :=
  bare "A" (some "B")
    (.ofList [.utf8 "A", .className "A", .utf8 "B", .className "B", .utf8 "m", .utf8 "()V",
      .nameAndType "m" "()V", .methodRef ⟨"A", method, "()V"⟩ false])

/-- The bytes of the class that calls `m`. -/
def callingBytes : Bytes :=
  [0xCA, 0xFE, 0xBA, 0xBE, 0, 0, 0, 52, 0, 9, 1, 0, 1, 65, 7, 0, 1, 1, 0, 1, 66, 7, 0, 3,
    1, 0, 1, 109, 1, 0, 3, 40, 41, 86, 12, 0, 5, 0, 6, 10, 0, 2, 0, 7,
    0, 0x21, 0, 2, 0, 4, 0, 0, 0, 0, 0, 0, 0, 0]

/-- The bytes of the class once it calls `n`, which stands behind what was there. -/
def callingNewBytes : Bytes :=
  [0xCA, 0xFE, 0xBA, 0xBE, 0, 0, 0, 52, 0, 11, 1, 0, 1, 65, 7, 0, 1, 1, 0, 1, 66, 7, 0, 3,
    1, 0, 1, 109, 1, 0, 3, 40, 41, 86, 12, 0, 5, 0, 6, 10, 0, 2, 0, 10,
    1, 0, 1, 110, 12, 0, 9, 0, 6, 0, 0x21, 0, 2, 0, 4, 0, 0, 0, 0, 0, 0, 0, 0]

/-- The pool of the class once it calls `n`. -/
def callingNewPool : ConstantPool :=
  .ofList 1 [.utf8 "A", .className 1, .utf8 "B", .className 3, .utf8 "m", .utf8 "()V",
    .nameAndType 5 6, .methodRef 2 10 false, .utf8 "n", .nameAndType 9 6]

/-- The pool with the new method is spelled like that. -/
theorem bytes_callingNewPool : (ClassFile.bare 2 4 callingNewPool).bytes = callingNewBytes := by cbv

/-- The bytes are those of the class that calls `m`. -/
theorem decode_calling : decode callingBytes = .ok (calling "m") := by cbv

/-- If no class gets another name, the call is all that changes. -/
theorem rename_calling {r : Renaming} (htype : ∀ name, r.type name = name) :
    (calling "m").rename r = calling (r.method ⟨"A", "m", "()V"⟩) := by
  have hdescriptor : r.descriptor "()V" = "()V" := by cbv
  have hconstant : ∀ name, Descriptor.isArray name = false → r.classConstant name = name := by
    intro name h
    rw [Renaming.classConstant, Descriptor.mapConstant, h]
    exact htype name
  have hA : r.classConstant "A" = "A" := hconstant "A" (by decide)
  have hB : r.classConstant "B" = "B" := hconstant "B" (by decide)
  rw [calling, rename_bare, EntryPool.map_ofList, htype, calling]
  simp only [List.map_cons, List.map_nil, Entry.rename, Renaming.member, hdescriptor, hA, hB,
    Option.map_some, htype]

/-- The names that the class shares are put in their places one after the other. -/
theorem set_calling (a b c d e f g h x : Constant) :
    (⟨#[(1, a), (2, b), (3, c), (4, d), (5, e), (6, f), (7, g), (8, h)], 9⟩ : ConstantPool).set 2 x =
        ⟨#[(1, a), (2, x), (3, c), (4, d), (5, e), (6, f), (7, g), (8, h)], 9⟩ ∧
      (⟨#[(1, a), (2, b), (3, c), (4, d), (5, e), (6, f), (7, g), (8, h)], 9⟩ : ConstantPool).set 4 x =
        ⟨#[(1, a), (2, b), (3, c), (4, x), (5, e), (6, f), (7, g), (8, h)], 9⟩ ∧
      (⟨#[(1, a), (2, b), (3, c), (4, d), (5, e), (6, f), (7, g), (8, h)], 9⟩ : ConstantPool).set 7 x =
        ⟨#[(1, a), (2, b), (3, c), (4, d), (5, e), (6, f), (7, x), (8, h)], 9⟩ := by
  refine ⟨?_, ?_, ?_⟩ <;> cbv

/-- The class that calls `m` is written as it was read. -/
theorem encode_calling : encode (calling "m") = .ok callingBytes := by
  have hcall : ∀ a b c d e f g h x : Constant,
      (⟨#[(1, a), (2, b), (3, c), (4, d), (5, e), (6, f), (7, g), (8, h)], 9⟩ : ConstantPool).set 8 x =
        ⟨#[(1, a), (2, b), (3, c), (4, d), (5, e), (6, f), (7, g), (8, x)], 9⟩ := by
    intro a b c d e f g h x
    cbv
  rw [calling, encode_bare]
  simp [buildNames, seed, Slots.ofList, Slots.toList, reserve, push, holding, settleShared,
    settlePointing, text, className, classAt, pair, pairAt, sharePair, shareClass, settle,
    StateT.bind, StateT.run, bind, pure, StateT.pure, Except.bind, Except.pure, empty,
    Slots.startingAt, Slots.push, Wide.width, Constant.width, Entry.width, slotLimit, superSlot,
    Std.HashMap.getElem_insertIfNew, set_calling, hcall]
  cbv

/-- Without other names the class is served as it is. -/
theorem encode_calling_widen (settings : Settings) :
    encode (((calling "m").rename .identity).widen settings) = .ok callingBytes := by
  rw [rename_calling fun _ => rfl, calling, widen_bare]
  exact encode_calling

/-- The class that calls `n` is written with two constants more. -/
theorem encode_calling_new : encode (calling "n") = .ok callingNewBytes := by
  -- The new name and its pair are there before the call itself is put in its place.
  have hcall : ∀ a b c d e f g h i j x : Constant,
      (⟨#[(1, a), (2, b), (3, c), (4, d), (5, e), (6, f), (7, g), (8, h), (9, i), (10, j)], 11⟩ :
        ConstantPool).set 8 x =
        ⟨#[(1, a), (2, b), (3, c), (4, d), (5, e), (6, f), (7, g), (8, x), (9, i), (10, j)], 11⟩ := by
    intro a b c d e f g h i j x
    cbv
  rw [calling, encode_bare, ← bytes_callingNewPool, callingNewPool]
  simp [buildNames, seed, Slots.ofList, Slots.toList, reserve, push, holding, settleShared,
    settlePointing, text, className, classAt, pair, pairAt, sharePair, shareClass, settle,
    StateT.bind, StateT.run, bind, pure, StateT.pure, Except.bind, Except.pure, empty,
    Slots.startingAt, Slots.push, Wide.width, Constant.width, Entry.width, slotLimit, superSlot,
    Std.HashMap.getElem_insertIfNew, Std.HashMap.getElem_insert, set_calling, hcall]

/-- The class `B`, which extends `G`. -/
def superClass : ClassTree :=
  bare "B" (some "G") (.ofList [.utf8 "B", .className "B", .utf8 "G", .className "G"])

/-- The bytes of that class. -/
def superBytes : Bytes :=
  [0xCA, 0xFE, 0xBA, 0xBE, 0, 0, 0, 52, 0, 5, 1, 0, 1, 66, 7, 0, 1, 1, 0, 1, 71, 7, 0, 3,
    0, 0x21, 0, 2, 0, 4, 0, 0, 0, 0, 0, 0, 0, 0]

/-- The bytes are those of the class `B`. -/
theorem decode_superClass : decode superBytes = .ok superClass := by cbv

/-- Without other names the class stays what it is. -/
theorem rename_superClass : superClass.rename .identity = superClass := by cbv

/-- The class is written as it was read. -/
theorem encode_superClass : encode superClass = .ok superBytes := by
  have hset : ∀ a b c d x : Constant,
      (⟨#[(1, a), (2, b), (3, c), (4, d)], 5⟩ : ConstantPool).set 2 x =
          ⟨#[(1, a), (2, x), (3, c), (4, d)], 5⟩ ∧
        (⟨#[(1, a), (2, b), (3, c), (4, d)], 5⟩ : ConstantPool).set 4 x =
          ⟨#[(1, a), (2, b), (3, c), (4, x)], 5⟩ := by
    intro a b c d x
    constructor <;> cbv
  rw [superClass, encode_bare]
  simp [buildNames, seed, Slots.ofList, Slots.toList, reserve, push, holding, settleShared,
    settlePointing, text, className, classAt, shareClass, settle, StateT.bind, StateT.run, bind,
    pure, StateT.pure, Except.bind, Except.pure, empty, Slots.startingAt, Slots.push, Wide.width,
    Constant.width, Entry.width, slotLimit, superSlot, Std.HashMap.getElem_insertIfNew, hset]
  cbv

end ClassTree

end Crosswalk
