import Crosswalk.Proofs.ClassTree.Bare
import Crosswalk.Proofs.ClassTree.Rewriting
import Crosswalk.Proofs.ClassTree.Sizes

/-!
# Class trees within the limits of the format

A class tree that nobody has read may still have texts, lists and bodies that fit their fields
(`ClassTree.InRange`). That is not enough for its bytes to give it back: a signature and lists of
annotations are attributes besides those that are not picked apart, and together they may be more
than sixteen bits can count (`ClassTree.in_range_reads_back_iff`). A class whose attributes can be
counted is given back, and its bytes are the bytes of what is given back
(`ClassTree.encode_stable`).
-/

namespace Crosswalk

open PoolBuilder (Need)

/-! ## Limits -/

/-- The lists and the bodies of metadata are within their limits, and what is not picked apart does
not have the name of what is. -/
structure Metadata.InRange (m : Metadata) : Prop where
  visible : m.visible.length < 65536
  invisible : m.invisible.length < 65536
  attributes : m.attributes.length < 65536
  annotations : ∀ a ∈ m.visible ++ m.invisible, a.Regular
  visibleBody : Annotation.bodySize m.visible < 4294967296
  invisibleBody : Annotation.bodySize m.invisible < 4294967296
  names : ∀ a ∈ m.attributes, a.name ≠ signatureName ∧ a.name ≠ visibleName ∧ a.name ≠ invisibleName
  bodies : ∀ a ∈ m.attributes, a.info.length < 4294967296

/-- The lists of a body are within their limits and so is the body, there is a tag for every frame,
and what is not picked apart does not have the name of what is. -/
structure Code.InRange (code : Code) : Prop where
  handlers : code.handlers.length < 65536
  frames : ∀ fs ∈ code.frames, fs.length < 65536 ∧ ∀ f ∈ fs, f.Regular
  locals : code.locals.length < 65536
  localTypes : code.localTypes.length < 65536
  attributes : code.attributes.length < 65536
  names : ∀ a ∈ code.attributes, a.name ≠ framesName ∧ a.name ≠ localsName ∧ a.name ≠ localTypesName
  size : code.size < 4294967296

namespace ClassTree

/-- The version is supported, the entries may have been read from a pool, and every text, every list
and every body is within its limit. -/
structure InRange (c : ClassTree) : Prop where
  version : c.version.isSupported = true
  constants : c.constants.Regular
  texts : ∀ s ∈ c.texts, Modified.Fits s
  interfaces : c.interfaces.length < 65536
  fields : c.fields.length < 65536
  methods : c.methods.length < 65536
  metadata : ∀ m ∈ c.metadatas, m.InRange
  bodies : ∀ m ∈ c.methods, ∀ code ∈ m.code, code.InRange
  names : ∀ m ∈ c.methods, ∀ a ∈ m.metadata.attributes, a.name ≠ Code.attributeName

/-- All attributes that are written, picked apart or not, can be counted by sixteen bits. -/
structure AttributesCounted (c : ClassTree) : Prop where
  metadata : c.metadata.parts.length < 65536
  fields : ∀ f ∈ c.fields, f.metadata.parts.length < 65536
  methods : ∀ m ∈ c.methods, m.parts.length < 65536
  bodies : ∀ m ∈ c.methods, ∀ code ∈ m.code, code.parts.length < 65536

end ClassTree

/-- The parts of metadata in range are regular. -/
theorem Metadata.InRange.part {m : Metadata} (h : m.InRange) : ∀ part ∈ m.parts, part.Regular := by
  intro part hpart
  rcases mem_parts.1 hpart with ⟨s, -, rfl⟩ | ⟨-, rfl⟩ | ⟨-, rfl⟩ | ⟨a, ha, rfl⟩
  · trivial
  · exact fun a ha => h.annotations a (List.mem_append_left _ ha)
  · exact fun a ha => h.annotations a (List.mem_append_right _ ha)
  · exact ⟨h.names a ha, h.bodies a ha⟩

/-- A body in range is regular if its attributes can be counted. -/
theorem Code.InRange.regular {code : Code} (h : code.InRange) (hcount : code.parts.length < 65536) :
    code.Regular := by
  have hsize := h.size
  rw [Code.size] at hsize
  refine ⟨by omega, h.handlers, hcount, fun part hpart => ?_, h.size⟩
  rcases mem_parts.1 hpart with ⟨fs, hfs, rfl⟩ | ⟨-, rfl⟩ | ⟨-, rfl⟩ | ⟨a, ha, rfl⟩
  · exact h.frames fs hfs
  · trivial
  · trivial
  · exact h.names a ha

/-- The lists of a body in range find room. -/
theorem Code.InRange.fits {code : Code} (h : code.InRange) : code.Fits := by
  intro part hpart
  rcases mem_parts.1 hpart with ⟨fs, -, rfl⟩ | ⟨-, rfl⟩ | ⟨-, rfl⟩ | ⟨a, -, rfl⟩
  · trivial
  · exact h.locals
  · exact h.localTypes
  · trivial

namespace ClassTree

variable {c m : ClassTree} {out : Bytes}

/-- A class in range finds room in its fields. -/
theorem InRange.fits (h : c.InRange) : c.Fits := by
  refine ⟨h.texts,
    attributesFit_iff.2 ⟨⟨fun m hm => ?_, fun m hm code hcode => ?_⟩, fun m hm => ?_⟩⟩
  · exact ⟨(h.metadata m hm).visible, (h.metadata m hm).invisible⟩
  · exact (h.bodies m hm code hcode).fits
  · exact ⟨(h.metadata m hm).visibleBody, (h.metadata m hm).invisibleBody⟩

/-- A class tree within the limits may have been read if its attributes can be counted. -/
theorem InRange.regular (h : c.InRange) (hcount : c.AttributesCounted) : c.Regular := by
  have hfield : ∀ f ∈ c.fields, f.metadata.InRange := fun f hf => h.metadata _ (by
    simp only [metadatas, List.mem_cons, List.mem_append, List.mem_map]
    exact .inr (.inl ⟨f, hf, rfl⟩))
  have hmethod : ∀ m ∈ c.methods, m.metadata.InRange := fun m hm => h.metadata _ (by
    simp only [metadatas, List.mem_cons, List.mem_append, List.mem_map]
    exact .inr (.inr ⟨m, hm, rfl⟩))
  refine
    { version := h.version
      constants := h.constants
      interfaces := h.interfaces
      fieldCount := h.fields
      fields := fun f hf => ⟨hcount.fields f hf, (hfield f hf).part⟩
      methodCount := h.methods
      methods := fun m hm => ⟨hcount.methods m hm, fun part hpart => ?_⟩
      metadata := ⟨hcount.metadata, (h.metadata _ List.mem_cons_self).part⟩ }
  rw [MethodTree.parts, List.mem_append, Option.toList_map, List.mem_map, List.mem_map] at hpart
  rcases hpart with ⟨code, hcode, rfl⟩ | ⟨part, hpart, rfl⟩
  · have hcode := Option.mem_toList.1 hcode
    exact (h.bodies m hm code hcode).regular (hcount.bodies m hm code hcode)
  · refine ⟨(hmethod m hm).part part hpart, ?_⟩
    rcases Metadata.mem_parts.1 hpart with ⟨s, -, rfl⟩ | ⟨-, rfl⟩ | ⟨-, rfl⟩ | ⟨a, ha, rfl⟩
    · exact (by decide : Metadata.signatureName ≠ Code.attributeName)
    · exact (by decide : Metadata.visibleName ≠ Code.attributeName)
    · exact (by decide : Metadata.invisibleName ≠ Code.attributeName)
    · exact h.names m hm a ha

/-! ## Reading back -/

/-- What has been read had its attributes counted. -/
theorem Regular.attributesCounted (h : c.Regular) : c.AttributesCounted where
  metadata := h.metadata.count
  fields f hf := (h.fields f hf).count
  methods m hm := (h.methods m hm).count
  bodies m hm code hcode := by
    have hpart : (.inr code : MethodTree.Part) ∈ m.parts := by
      rw [MethodTree.parts, hcode]
      exact List.mem_append_left _ List.mem_cons_self
    exact ((h.methods m hm).parts _ hpart).count

/-- Only a class tree whose attributes can be counted is given back. -/
theorem attributesCounted_of_decode (hm : decode out = .ok m) (h : m.Extends c) :
    c.AttributesCounted := by
  have hcount := (regular_of_decode hm).attributesCounted
  rw [h.same] at hcount
  exact ⟨hcount.metadata, hcount.fields, hcount.methods, hcount.bodies⟩

/-- The class and its super class are within the limits if their names are. -/
theorem inRange_smallest {name superName : String} (hname : Modified.Fits name)
    (hsuper : Modified.Fits superName) : (smallest name superName).InRange where
  version := rfl
  constants := by
    have hlist : (smallest name superName).constants.toList =
        [(1, .utf8 "A"), (2, .className name), (3, .utf8 "B"), (4, .className superName)] := rfl
    refine ⟨fun item hitem => ?_, fun item hitem => ?_⟩ <;>
    · rw [hlist] at hitem
      simp only [List.mem_cons, List.not_mem_nil, or_false] at hitem
      rcases hitem with rfl | rfl | rfl | rfl <;> trivial
  texts s hs := by
    have hA : Modified.Fits "A" := by unfold Modified.Fits; decide +kernel
    have hB : Modified.Fits "B" := by unfold Modified.Fits; decide +kernel
    rw [texts_smallest] at hs
    simp only [List.mem_cons, List.not_mem_nil, or_false] at hs
    rcases hs with rfl | rfl | rfl | rfl | rfl | rfl
    exacts [hA, hname, hB, hsuper, hname, hsuper]
  interfaces := by simp [smallest, bare]
  fields := by simp [smallest, bare]
  methods := by simp [smallest, bare]
  metadata m hm := by
    have hmetadatas : (smallest name superName).metadatas = [⟨none, [], [], []⟩] := rfl
    rw [hmetadatas, List.mem_singleton] at hm
    subst hm
    exact ⟨by decide, by decide, by decide, by simp, by decide, by decide, by simp, by simp⟩
  bodies := by simp [smallest, bare]
  names := by simp [smallest, bare]

/-- The smallest class has no attributes to count. -/
theorem attributesCounted_smallest (name superName : String) :
    (smallest name superName).AttributesCounted where
  metadata := by simp [smallest, bare, Metadata.parts]
  fields := by simp [smallest, bare]
  methods := by simp [smallest, bare]
  bodies := by simp [smallest, bare]

/-- The class may have names that its constants lack. -/
theorem inRange_lacking : (smallest "X" "Y").InRange :=
  inRange_smallest (by unfold Modified.Fits; decide +kernel)
  (by unfold Modified.Fits; decide +kernel)

/-- A class tree within the limits is given back by its bytes, with more constants behind the old
ones, exactly if all attributes that are written can be counted. -/
theorem in_range_reads_back_iff (h : c.InRange) (hout : encode c = .ok out) :
    (∃ m, decode out = .ok m ∧ m.Extends c) ↔ c.AttributesCounted := by
  constructor
  · rintro ⟨m, hm, hextends⟩
    exact attributesCounted_of_decode hm hextends
  · intro hcount
    obtain ⟨-, m, -, -, hm, hextends⟩ := exists_decode_of_fits (h.regular hcount) h.fits hout
    exact ⟨m, hm, hextends⟩

/-- The constants of a class `X` that extends `Y` lack both names. -/
theorem in_range_reads_back_short : (smallest "X" "Y").InRange ∧
    (smallest "X" "Y").AttributesCounted ∧ ∃ out m, encode (smallest "X" "Y") = .ok out ∧
      decode out = .ok m ∧ m.Extends (smallest "X" "Y") := by
  have hcount := attributesCounted_smallest "X" "Y"
  have hout := @encode_smallest "X" "Y" (by decide)
  obtain ⟨m, hm, hextends⟩ := (in_range_reads_back_iff inRange_lacking hout).2 hcount
  exact ⟨inRange_lacking, hcount, _, m, hout, hm, hextends⟩

/-! ## Attributes that cannot be counted -/

/-- A class with a signature and a number of other attributes. -/
def crowded (n : Nat) : ClassTree where
  version := ⟨52, 0⟩
  access := .known _ 0x21
  name := "A"
  superName := none
  interfaces := []
  fields := []
  methods := []
  metadata := ⟨some "S", [], [], List.replicate n ⟨"X", []⟩⟩
  constants := .ofList [.utf8 "A", .className "A", .utf8 "S", .utf8 "Signature", .utf8 "X"]

variable {n : Nat}

/-- The parts are a signature and the attributes that are carried along. -/
theorem parts_crowded : (crowded n).metadata.parts =
    .signature "S" :: List.replicate n (.other ⟨"X", []⟩) := by
  simp only [crowded, Metadata.parts, Option.map_some, Option.toList_some,
    List.isEmpty_nil, if_true,
    List.nil_append, List.map_replicate]
  rfl

/-- The pool provides what the class needs. -/
theorem toList_crowded : (crowded n).constants.toList =
    [(1, .utf8 "A"), (2, .className "A"), (3, .utf8 "S"), (4, .utf8 "Signature"), (5, .utf8 "X")] :=
  rfl

/-- Everything in the class is made of four short texts. -/
theorem mem_texts_crowded {s : String} (h : s ∈ (crowded n).texts) :
    s ∈ ["A", "S", "Signature", "X"] := by
  have hbody : (crowded n).bodyTexts = "A" :: (crowded n).metadata.texts := rfl
  rw [texts, toList_crowded, hbody, Metadata.texts, parts_crowded] at h
  simp [Entry.texts, Metadata.Part.texts, Metadata.signatureName] at h ⊢
  grind

/-- All texts and lists are short enough. -/
theorem inRange_crowded (hn : n < 65536) : (crowded n).InRange where
  version := rfl
  constants := by
    refine ⟨fun item hitem => ?_, fun item hitem => ?_⟩ <;>
    · rw [toList_crowded] at hitem
      simp only [List.mem_cons, List.not_mem_nil, or_false] at hitem
      rcases hitem with rfl | rfl | rfl | rfl | rfl <;> trivial
  texts s hs := by
    have hshort := mem_texts_crowded hs
    simp only [List.mem_cons, List.not_mem_nil, or_false] at hshort
    unfold Modified.Fits
    rcases hshort with rfl | rfl | rfl | rfl <;> decide +kernel
  interfaces := by simp [crowded]
  fields := by simp [crowded]
  methods := by simp [crowded]
  metadata m hm := by
    have hmetadatas : (crowded n).metadatas = [(crowded n).metadata] := rfl
    rw [hmetadatas, List.mem_singleton] at hm
    subst hm
    have hother : ∀ a ∈ (crowded n).metadata.attributes, a = ⟨"X", []⟩ := fun a ha =>
      List.eq_of_mem_replicate ha
    exact
      { visible := by simp [crowded]
        invisible := by simp [crowded]
        attributes := by simpa [crowded] using hn
        annotations := by simp [crowded]
        visibleBody := by simp [crowded, Annotation.bodySize]
        invisibleBody := by simp [crowded, Annotation.bodySize]
        names := fun a ha => by rw [hother a ha]; decide
        bodies := fun a ha => by rw [hother a ha]; decide }
  bodies := by simp [crowded]
  names := by simp [crowded]

/-- All that the class needs is among its entries, so it is written. -/
theorem exists_encode_crowded (n : Nat) : ∃ out, encode (crowded n) = .ok out := by
  have hprovides : ∀ need ∈ [Need.text "A", .className "A", .text "S", .text "Signature",
      .text "X"], (crowded n).constants.Provides need := by
    intro need hneed
    simp only [List.mem_cons, List.not_mem_nil, or_false] at hneed
    rcases hneed with rfl | rfl | rfl | rfl | rfl
    · exact ⟨1, by rw [toList_crowded]; decide⟩
    · exact ⟨2, by rw [toList_crowded]; decide⟩
    · exact ⟨3, by rw [toList_crowded]; decide⟩
    · exact ⟨4, by rw [toList_crowded]; decide⟩
    · exact ⟨5, by rw [toList_crowded]; decide⟩
  have hclosed : (crowded n).constants.Closed := by
    intro item hitem need hneed
    rw [toList_crowded] at hitem
    simp only [List.mem_cons, List.not_mem_nil, or_false] at hitem
    rcases hitem with rfl | rfl | rfl | rfl | rfl <;> simp [Entry.needs] at hneed
    exact hprovides need (by simp [hneed])
  have hneeds : ∀ need ∈ (crowded n).needs, (crowded n).constants.Provides need := by
    intro need hneed
    have hsplit : (crowded n).needs = .className "A" :: (crowded n).metadata.needs := rfl
    rw [hsplit, Metadata.needs, parts_crowded] at hneed
    refine hprovides need ?_
    simp [Metadata.Part.needs, Metadata.signatureName] at hneed ⊢
    grind
  obtain ⟨b, file, -, -, -, hfile⟩ := exists_built (c := crowded n)
    hclosed (by decide : 6 ≤ PoolBuilder.slotLimit) hneeds
  exact ⟨_, encode_eq_ok_iff.2 ⟨_, hfile, rfl⟩⟩

/-- With as many other attributes as one list may have there are 65536 attributes. None is
announced, and the class cannot be read any more. -/
theorem in_range_not_read_back : (crowded 65535).InRange ∧ ∃ out,
    encode (crowded 65535) = .ok out ∧ ¬ ∃ m, decode out = .ok m ∧ m.Extends (crowded 65535) := by
  obtain ⟨out, hout⟩ := exists_encode_crowded 65535
  refine ⟨inRange_crowded (by decide), out, hout, ?_⟩
  rintro ⟨m, hm, hextends⟩
  have hcount := (attributesCounted_of_decode hm hextends).metadata
  rw [parts_crowded, List.length_cons, List.length_replicate] at hcount
  omega

/-! ## Writing again -/

/-- The bytes of a class tree within the limits are the bytes of what is read from them. -/
theorem encode_stable (h : c.InRange) (hcount : c.AttributesCounted) (hout : encode c = .ok out) :
    ∃ m, decode out = .ok m ∧ encode m = .ok out := by
  have hc := h.regular hcount
  obtain ⟨f, m, hf, hfile, hm, hextends⟩ := exists_decode_of_fits hc h.fits hout
  refine ⟨m, hm, ?_⟩
  obtain ⟨f', hf', hread⟩ := bind_eq_ok_iff.1 hm
  cases hfile.symm.trans hf'
  obtain ⟨f'', hf'', rfl⟩ := encode_eq_ok_iff.1 hout
  cases hf.symm.trans hf''
  -- The file that is read is the one that has been written.
  have hregular := ClassFile.regular_of_ofBytes hfile
  exact encode_eq_ok_iff.2 ⟨f, toFile_of_ofFile hc hf hregular hread hextends.same, rfl⟩

/-- The constants of a class `X` that extends `Y` have grown once it is read, but its bytes stay. -/
theorem encode_stable_short : (smallest "X" "Y").InRange ∧ (smallest "X" "Y").AttributesCounted ∧
    ∃ out m, encode (smallest "X" "Y") = .ok out ∧ decode out = .ok m ∧ encode m = .ok out := by
  have hcount := attributesCounted_smallest "X" "Y"
  have hout := @encode_smallest "X" "Y" (by decide)
  obtain ⟨m, hm, hagain⟩ := encode_stable inRange_lacking hcount hout
  exact ⟨inRange_lacking, hcount, _, m, hout, hm, hagain⟩

end ClassTree

end Crosswalk
