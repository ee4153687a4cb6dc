import Crosswalk.Proofs.ClassTree.InRange
import Crosswalk.Proofs.Renaming.ReadBack

/-!
# What patches change

In a development environment methods of mixins become public. `ClassTree.Patched` says what a class
comes to be by that: its methods stay in their order, those that are exposed have another
visibility, and all the rest is as it was. This still holds of what is read from the bytes of the
class, whose constants may go on behind the old ones (`ClassTree.exists_patched`).
-/

namespace Crosswalk

/-! ## Flags -/

namespace Access

variable (a : Access .methods) (flags : UInt16)

/-- All flags stay but those for the visibility. -/
theorem others_withVisibility :
    (a.withVisibility flags).bits &&& ~~~visibility = a.bits &&& ~~~visibility := by
  have hgone : visibility &&& ~~~visibility = 0 := by decide
  rw [bits_withVisibility, or_and_mask, UInt16.and_assoc, UInt16.and_self, UInt16.and_assoc, hgone,
    UInt16.and_zero, UInt16.or_zero]

/-- The new visibility is the one that was asked for. -/
theorem visibility_withVisibility :
    (a.withVisibility flags).bits &&& visibility = flags &&& visibility := by
  have hgone : ~~~visibility &&& visibility = 0 := by decide
  rw [bits_withVisibility, or_and_mask, UInt16.and_assoc, hgone, UInt16.and_zero, UInt16.zero_or,
    UInt16.and_assoc, UInt16.and_self]

/-- Visibility can be set twice. -/
theorem withVisibility_withVisibility :
    (a.withVisibility flags).withVisibility flags = a.withVisibility flags := by
  rw [withVisibility, others_withVisibility]
  rfl

/-- Whether a flag is set does not depend on the visibility if the flag has nothing to do with it.
-/
theorem has_withVisibility {mask : UInt16} (hmask : ~~~visibility &&& mask = mask) :
    (a.withVisibility flags).has mask = a.has mask := by
  have hothers : ∀ b : Access .methods, b.bits &&& mask = b.bits &&& ~~~visibility &&& mask := by
    intro b
    rw [UInt16.and_assoc, hmask]
  rw [has, has, hothers, others_withVisibility, ← hothers]

end Access

/-! ## Methods -/

/-- The patches for development make the method public: they apply, the class is a mixin, and the
method has an instance and no annotation that is kept for the runtime, or the one for replacements.
-/
structure MethodTree.Exposed (s : Settings) (c : ClassTree) (m : MethodTree) : Prop where
  development : s.development = true
  mixin : ∃ a ∈ c.metadata.invisible, a.type = s.mixin
  instanced : m.access.has Access.isStatic = false
  replacing : m.metadata.visible = [] ∨ ∃ a ∈ m.metadata.visible, a.type = s.overwrite

/-- What a method of a class comes to be: public if it is exposed, and otherwise what it was. -/
structure MethodTree.Patched (s : Settings) (c : ClassTree) (m after : MethodTree) : Prop where
  same : after = { m with access := after.access }
  others : after.access.bits &&& ~~~Access.visibility = m.access.bits &&& ~~~Access.visibility
  exposed : m.Exposed s c → after.access.bits &&& Access.visibility = Access.isPublic
  kept : ¬m.Exposed s c → after = m

namespace MethodTree

variable (s : Settings) (m : MethodTree)

/-- A method that is widened gets public, and nothing else is changed. -/
theorem widen_of_isWidened {s : Settings} {m : MethodTree} (h : m.isWidened s = true) :
    m.widen s = { m with access := m.access.withVisibility Access.isPublic } :=
  if_pos h

/-- Any other method stays what it is. -/
theorem widen_of_not_isWidened {s : Settings} {m : MethodTree} (h : ¬m.isWidened s = true) :
    m.widen s = m :=
  if_neg h

/-- Whether a method is widened does not depend on its visibility. -/
theorem isWidened_widen : (m.widen s).isWidened s = m.isWidened s := by
  by_cases h : m.isWidened s = true
  · have hstatic : ~~~Access.visibility &&& Access.isStatic = Access.isStatic := by decide
    rw [widen_of_isWidened h]
    simp only [isWidened, Access.has_withVisibility m.access Access.isPublic hstatic]
  · rw [widen_of_not_isWidened h]

/-- A method that is public by now is not changed once more. -/
theorem widen_widen : (m.widen s).widen s = m.widen s := by
  by_cases h : m.isWidened s = true
  · rw [widen_of_isWidened (isWidened_widen s m ▸ h), widen_of_isWidened h]
    simp only [Access.withVisibility_withVisibility]
  · rw [widen_of_not_isWidened h, widen_of_not_isWidened h]

end MethodTree

namespace ClassTree

variable {s : Settings} {c after : ClassTree} {out : Bytes}

/-- Methods are exposed in development, in mixins, and if they are to be widened. -/
theorem exposed_iff {m : MethodTree} : m.Exposed s c ↔
    (s.development && c.isMixin s) = true ∧ m.isWidened s = true := by
  have hmixin : c.isMixin s = true ↔ ∃ a ∈ c.metadata.invisible, a.type = s.mixin := by
    simp [isMixin, Metadata.hasInvisible]
  have hwidened : m.isWidened s = true ↔ m.access.has Access.isStatic = false ∧
      (m.metadata.visible = [] ∨ ∃ a ∈ m.metadata.visible, a.type = s.overwrite) := by
    simp [MethodTree.isWidened, Metadata.hasVisible]
  rw [Bool.and_eq_true, hmixin, hwidened]
  exact ⟨fun h => ⟨⟨h.development, h.mixin⟩, h.instanced, h.replacing⟩,
    fun h => ⟨h.1.1, h.1.2, h.2.1, h.2.2⟩⟩

/-- A method with the patches for development, where they apply to its class. -/
def patchMethod (s : Settings) (c : ClassTree) (m : MethodTree) : MethodTree :=
  if s.development && c.isMixin s then m.widen s else m

/-- A method can be patched twice. -/
theorem patchMethod_patchMethod (m : MethodTree) :
    c.patchMethod s (c.patchMethod s m) = c.patchMethod s m := by
  unfold patchMethod
  split
  · exact m.widen_widen s
  · rfl

/-- What a patch makes of a method is what it should be. -/
theorem patched_patchMethod (m : MethodTree) : m.Patched s c (c.patchMethod s m) := by
  by_cases h : m.Exposed s c
  · obtain ⟨happlies, hwidened⟩ := exposed_iff.1 h
    rw [patchMethod, if_pos happlies, MethodTree.widen_of_isWidened hwidened]
    refine ⟨rfl, m.access.others_withVisibility _, fun _ => ?_, fun hnot => absurd h hnot⟩
    exact m.access.visibility_withVisibility Access.isPublic
  · have hsame : c.patchMethod s m = m := by
      unfold patchMethod
      split
      · next happlies =>
        exact MethodTree.widen_of_not_isWidened fun hwidened =>
          h (exposed_iff.2 ⟨happlies, hwidened⟩)
      · rfl
    rw [hsame]
    exact ⟨rfl, rfl, fun hexposed => absurd hexposed h, fun _ => rfl⟩

/-! ## Classes -/

/-- What a class comes to be: its methods are patched one by one, and all the rest is as it was,
except that there may be more constants behind the old ones. What has been counted are the methods
with other flags, there is nothing left to patch, and it is a configuration screen if it was one. -/
structure Patched (s : Settings) (c after : ClassTree) : Prop where
  same : after = { c with methods := after.methods, constants := after.constants }
  constants : c.constants.toList <+: after.constants.toList
  methods : List.Forall₂ (MethodTree.Patched s c) c.methods after.methods
  count : c.widenedCount s =
    (c.methods.zip after.methods).countP fun pair => pair.2.access != pair.1.access
  again : after.widen s = after ∧ after.widenedCount s = 0
  screen : after.isScreen s = c.isScreen s

/-- The methods of a class are patched one by one. -/
theorem widen_eq_map (s : Settings) (c : ClassTree) :
    c.widen s = { c with methods := c.methods.map (c.patchMethod s) } := by
  rw [widen]
  unfold patchMethod
  split
  · rfl
  · rw [List.map_id'']
    exact fun _ => rfl

/-- Only methods that change are counted. -/
theorem widenedCount_eq (s : Settings) (c : ClassTree) : c.widenedCount s =
    c.methods.countP fun m => (c.patchMethod s m).access != m.access := by
  rw [widenedCount]
  unfold patchMethod
  split
  · rfl
  · simp

/-- A class with its patches, be it with more constants, is what it should come to be. -/
theorem patched_of_extends (h : after.Extends (c.widen s)) : c.Patched s after := by
  have hsame : after = { c with
      methods := c.methods.map (c.patchMethod s), constants := after.constants } := by
    rw [h.same, widen_eq_map]
  have hmethods : after.methods = c.methods.map (c.patchMethod s) := congrArg methods hsame
  -- Whether patches apply is said by the annotations of the class, which are the same.
  have hpatch : after.patchMethod s = c.patchMethod s := by
    rw [hsame]
    rfl
  have hagain : after.methods.map (after.patchMethod s) = after.methods := by
    rw [hpatch, hmethods, List.map_map]
    exact List.map_congr_left fun m _ => patchMethod_patchMethod m
  refine
    { same := by rw [hmethods]; exact hsame
      constants := ?_
      methods := ?_
      count := ?_
      again := ⟨?_, ?_⟩
      screen := ?_ }
  · have hprefix := h.constants
    rwa [widen_eq_map] at hprefix
  · rw [hmethods, List.forall₂_map_right_iff, List.forall₂_same]
    exact fun m _ => patched_patchMethod m
  · have hpairs : c.methods.zip after.methods = c.methods.map fun m => (m, c.patchMethod s m) := by
      rw [hmethods]
      have hzip := List.zip_map' (f := id) (g := c.patchMethod s) (l := c.methods)
      rwa [List.map_id] at hzip
    rw [widenedCount_eq, hpairs, List.countP_map]
    rfl
  · rw [widen_eq_map, hagain]
  · rw [widenedCount_eq, hpatch, hmethods, List.countP_map, List.countP_eq_zero]
    intro m _
    simp [patchMethod_patchMethod]
  · rw [hsame]
    rfl

/-- What is read from the bytes of a class with its patches is what the class should come to be. -/
theorem exists_patched (hc : c.Regular) (hfits : c.Fits) (hout : encode (c.widen s) = .ok out) :
    ∃ after, decode out = .ok after ∧ c.Patched s after := by
  have hwiden : (c.widen s).Fits :=
    ⟨(texts_widen s c).symm ▸ hfits.texts, (attributesFit_widen s c).2 hfits.attributes⟩
  obtain ⟨-, after, -, -, hdecode, hextends⟩ := exists_decode_of_fits (hc.widen s) hwiden hout
  exact ⟨after, hdecode, patched_of_extends hextends⟩

/-- A class whose names are new has more constants once it is read, even without anything to patch.
-/
theorem constants_grow :
    let c := (smallest "A" "B").rename (renameBoth "X" "Y")
    c.InRange ∧ c.AttributesCounted ∧ ∃ out after, encode (c.widen (.standard "")) = .ok out ∧
      decode out = .ok after ∧ after.constants ≠ c.constants := by
  intro c
  have hc : c = smallest "X" "Y" := rename_smallest "X" "Y"
  have hdecode : decode (ClassFile.bare 2 4 (smallestPool "X" "Y")).bytes =
      .ok (bare "X" (some "Y") (.ofList [.utf8 "A", .className "X", .utf8 "B", .className "Y",
        .utf8 "X", .utf8 "Y"])) := by cbv
  refine ⟨hc ▸ inRange_lacking, hc ▸ attributesCounted_smallest "X" "Y", _, _,
    encode_renamed_smallest (.standard "") (by decide), hdecode, fun hsame => ?_⟩
  rw [hc] at hsame
  have hlength := congrArg (fun es : EntryPool => es.toList.length) hsame
  revert hlength
  decide

/-! ## A mixin -/

/-- A mixin with a method whose flags are given and a private one without an instance. -/
def mixin (flags : UInt16) : ClassTree where
  version := ⟨52, 0⟩
  access := .known _ 0x21
  name := "A"
  superName := none
  interfaces := []
  fields := []
  methods := [⟨.known _ flags, "m", "()V", ⟨none, [], [], []⟩, none⟩,
    ⟨.known _ 0x000A, "n", "()V", ⟨none, [], [], []⟩, none⟩]
  metadata := ⟨none, [], [.mk "LM;" []], []⟩
  constants := .ofList [.utf8 "A", .className "A", .utf8 "m", .utf8 "()V", .utf8 "n", .utf8 "LM;",
    .utf8 "RuntimeInvisibleAnnotations"]

/-- The bytes of the mixin. -/
def mixinBytes (flags : UInt8) : Bytes :=
  [0xCA, 0xFE, 0xBA, 0xBE, 0, 0, 0, 52, 0, 8, 1, 0, 1, 65, 7, 0, 1, 1, 0, 1, 109,
    1, 0, 3, 40, 41, 86, 1, 0, 1, 110, 1, 0, 3, 76, 77, 59, 1, 0, 27,
    82, 117, 110, 116, 105, 109, 101, 73, 110, 118, 105, 115, 105, 98, 108, 101, 65, 110, 110, 111,
    116, 97, 116, 105, 111, 110, 115,
    0, 0x21, 0, 2, 0, 0, 0, 0, 0, 0, 0, 2, 0, flags, 0, 3, 0, 4, 0, 0, 0, 0x0A, 0, 5, 0, 4, 0, 0,
    0, 1, 0, 7, 0, 0, 0, 6, 0, 1, 0, 6, 0, 0]

/-- The file of the mixin. -/
def mixinFile (flags : UInt16) : ClassFile :=
  { ClassFile.bare 2 0 (.ofList 1 [.utf8 "A", .className 1, .utf8 "m", .utf8 "()V", .utf8 "n",
      .utf8 "LM;", .utf8 "RuntimeInvisibleAnnotations"]) with
    methods := [⟨.known _ flags, 3, 4, []⟩, ⟨.known _ 0x000A, 5, 4, []⟩]
    attributes := [⟨7, [0, 1, 0, 6, 0, 0]⟩] }

/-- The two classes have these bytes. -/
theorem ofBytes_mixin : ClassFile.ofBytes (mixinBytes 2) = .ok (mixinFile 2) ∧
    ClassFile.ofBytes (mixinBytes 1) = .ok (mixinFile 1) := by
  constructor <;> cbv

/-- The file is that of the mixin, whatever its method may do. -/
theorem ofFile_mixin (flags : UInt16) : ofFile (mixinFile flags) = .ok (mixin flags) := by cbv

/-- The bytes are those of the mixin with a private method. -/
theorem decode_mixin : decode (mixinBytes 2) = .ok (mixin 2) :=
  bind_eq_ok_iff.2 ⟨mixinFile 2, ofBytes_mixin.1, ofFile_mixin 2⟩

/-- Settings for a development environment where `M` marks mixins. -/
def mixinSettings : Settings :=
  { Settings.standard "tmp" with development := true, mixin := "LM;" }

/-- In development the method gets public. -/
theorem widen_mixin : (mixin 2).widen mixinSettings = mixin 1 := by cbv

/-- Without other names the mixin stays what it is. -/
theorem rename_mixin : (mixin 2).rename .identity = mixin 2 := by cbv

/-- There is room for the mixin with its public method. -/
theorem exists_encode_mixin : ∃ out, encode (mixin 1) = .ok out := by
  have hregular := ClassFile.regular_of_ofBytes ofBytes_mixin.2
  obtain ⟨b, file, -, -, -, -, hfile⟩ := exists_rebuilt hregular (ofFile_mixin 1)
  exact ⟨_, encode_eq_ok_iff.2 ⟨_, hfile, rfl⟩⟩

/-- All texts and lists of the mixin are short enough. -/
theorem inRange_mixin : (mixin 2).InRange where
  version := rfl
  constants := (regular_of_decode decode_mixin).constants
  texts s hs := by
    have htexts : (mixin 2).texts ⊆ ["A", "m", "()V", "n", "LM;",
        "RuntimeInvisibleAnnotations"] := by decide
    have hshort := htexts hs
    simp only [List.mem_cons, List.not_mem_nil, or_false] at hshort
    unfold Modified.Fits
    rcases hshort with rfl | rfl | rfl | rfl | rfl | rfl <;> decide +kernel
  interfaces := by decide
  fields := by decide
  methods := by decide
  metadata m hm := by
    have hmetadatas : (mixin 2).metadatas = [⟨none, [], [.mk "LM;" []], []⟩,
      ⟨none, [], [], []⟩, ⟨none, [], [], []⟩] := rfl
    rw [hmetadatas] at hm
    simp only [List.mem_cons, List.not_mem_nil, or_false] at hm
    rcases hm with rfl | rfl | rfl
    all_goals
      refine ⟨by decide, by decide, by decide, ?_, ?_, ?_, by simp, by simp⟩
      · simp [Piece.Regular, Annotation.Regular, Annotation.pieces, Element.piecesAll]
      · decide
      · decide
  bodies := by simp [mixin]
  names := by simp [mixin]

end ClassTree

end Crosswalk
