import Crosswalk.Patch
import Crosswalk.Proofs.ClassTree.Sizes
import Crosswalk.Renaming.Tree

/-!
# Renaming keeps the shape

A class tree that may have been read may have been read with its new names too
(`ClassTree.Regular.rename`), and its attributes can be told by the fields that announce their
lengths exactly if they could before (`ClassTree.attributesFit_rename`). Widening methods changes
their flags only.
-/

namespace Crosswalk

/-! ## Method bodies -/

namespace Code

/-- A part of a body with its new names. -/
def Part.rename (r : Renaming) : Part → Part
  | frames fs => frames (fs.map fun frame => frame.map r.classConstant)
  | locals vs => locals (vs.map fun v => v.mapType r.descriptor)
  | localTypes vs => localTypes (vs.map fun v => v.mapType r.signature)
  | other a => other a

/-- The parts of a body get their new names one by one. -/
theorem parts_rename (r : Renaming) (code : Code) :
    (code.rename r).parts = code.parts.map (Part.rename r) := by
  rw [parts, parts, List.map_append, List.map_append, List.map_append,
    map_unlessEmpty (g := Part.rename r) Part.locals Part.locals fun _ => rfl,
    map_unlessEmpty (g := Part.rename r) Part.localTypes Part.localTypes fun _ => rfl]
  simp only [Code.rename, Option.toList_map, List.map_map, Option.map_map]
  rfl

/-- A part keeps its size. -/
theorem Part.size_rename (r : Renaming) (part : Part) : (part.rename r).size = part.size := by
  cases part <;> simp [Part.rename, size, infoSize, Function.comp_def]

theorem Part.regular_rename (r : Renaming) (part : Part) :
    (part.rename r).Regular ↔ part.Regular := by
  cases part <;> simp [Part.rename, Regular]

theorem Part.fits_rename (r : Renaming) (part : Part) : (part.rename r).Fits ↔ part.Fits := by
  cases part <;> simp [Part.rename, Fits]

/-- The body keeps its size. -/
theorem size_rename (r : Renaming) (code : Code) : (code.rename r).size = code.size := by
  have hsizes : (code.parts.map (Part.rename r)).map Part.size = code.parts.map Part.size := by
    rw [List.map_map]
    exact List.map_congr_left fun part _ => part.size_rename r
  rw [size, parts_rename, hsizes]
  rfl

theorem Regular.rename {code : Code} (h : code.Regular) (r : Renaming) :
    (code.rename r).Regular where
  bytecode := h.bytecode
  handlers := h.handlers
  count := by rw [parts_rename, List.length_map]; exact h.count
  parts := by
    rw [parts_rename, List.forall_mem_map]
    exact fun part hpart => (part.regular_rename r).2 (h.parts part hpart)
  size := by rw [size_rename]; exact h.size

theorem fits_rename (r : Renaming) (code : Code) : (code.rename r).Fits ↔ code.Fits := by
  simp [Fits, parts_rename, Part.fits_rename]

end Code

/-! ## Metadata -/

namespace Metadata

/-- A part of metadata with its new names. -/
def Part.rename (r : Renaming) : Part → Part
  | signature s => signature (r.signature s)
  | visible as => visible (as.map fun a => a.map r.descriptor)
  | invisible as => invisible (as.map fun a => a.map r.descriptor)
  | other a => other a

/-- The parts of metadata get their new names one by one. -/
theorem parts_rename (r : Renaming) (m : Metadata) :
    (m.rename r).parts = m.parts.map (Part.rename r) := by
  rw [parts, parts, List.map_append, List.map_append, List.map_append,
    map_unlessEmpty (g := Part.rename r) Part.visible Part.visible fun _ => rfl,
    map_unlessEmpty (g := Part.rename r) Part.invisible Part.invisible fun _ => rfl]
  simp only [Metadata.rename, Option.toList_map, List.map_map, Option.map_map]
  rfl

/-- A part stays regular. -/
theorem Part.regular_rename (r : Renaming) (part : Part) :
    (part.rename r).Regular ↔ part.Regular := by
  cases part <;> simp [Part.rename, Regular, Annotation.regular_map]

theorem Part.name_rename (r : Renaming) (part : Part) : (part.rename r).name = part.name := by
  cases part <;> rfl

theorem Part.fits_rename (r : Renaming) (part : Part) : (part.rename r).Fits ↔ part.Fits := by
  cases part <;>
    simp [Part.rename, Fits, Annotation.bodySize, Function.comp_def, Annotation.size_map]

/-- Metadata stay regular. -/
theorem Regular.rename {m : Metadata} (h : m.Regular) (r : Renaming) : (m.rename r).Regular where
  count := by rw [parts_rename, List.length_map]; exact h.count
  parts := by
    rw [parts_rename, List.forall_mem_map]
    exact fun part hpart => (part.regular_rename r).2 (h.parts part hpart)

theorem fits_rename (r : Renaming) (m : Metadata) : (m.rename r).Fits ↔ m.Fits := by
  simp [Fits, parts_rename, Part.fits_rename]

end Metadata

/-! ## Methods -/

namespace MethodTree

/-- A part of a method with its new names. -/
def renamePart (r : Renaming) : Part → Part
  | .inl part => .inl (part.rename r)
  | .inr code => .inr (code.rename r)

/-- The parts of a method get their new names one by one. -/
theorem parts_rename (r : Renaming) (owner : String) (m : MethodTree) :
    (m.rename r owner).parts = m.parts.map (renamePart r) := by
  rw [parts, parts, List.map_append, List.map_map]
  simp only [MethodTree.rename, Metadata.parts_rename, Option.toList_map, List.map_map,
    Option.map_map]
  rfl

/-- A part stays regular. -/
theorem partRegular_renamePart {r : Renaming} {part : Part} (h : PartRegular part) :
    PartRegular (renamePart r part) := by
  cases part with
  | inl part => exact ⟨(part.regular_rename r).2 h.1, by rw [part.name_rename]; exact h.2⟩
  | inr code => exact Code.Regular.rename h r

theorem partFits_renamePart (r : Renaming) (part : Part) :
    PartFits (renamePart r part) ↔ PartFits part := by
  cases part with
  | inl part => exact part.fits_rename r
  | inr code => exact code.fits_rename r

/-- A method stays regular. -/
theorem Regular.rename {m : MethodTree} (h : m.Regular) (r : Renaming) (owner : String) :
    (m.rename r owner).Regular where
  count := by rw [parts_rename, List.length_map]; exact h.count
  parts := by
    rw [parts_rename, List.forall_mem_map]
    exact fun part hpart => partRegular_renamePart (h.parts part hpart)

theorem fits_rename (r : Renaming) (owner : String) (m : MethodTree) :
    (m.rename r owner).Fits ↔ m.Fits := by
  rw [Fits, Fits, parts_rename, List.forall_mem_map]
  exact forall_congr' fun part => imp_congr_right fun _ => partFits_renamePart r part

/-- Only flags are changed. -/
theorem widen_eq (s : Settings) (m : MethodTree) : ∃ access, m.widen s = { m with access } := by
  rw [widen]
  split
  · exact ⟨_, rfl⟩
  · exact ⟨m.access, rfl⟩

end MethodTree

/-! ## The pool -/

/-- An entry stays regular. -/
theorem Entry.regular_rename (r : Renaming) (e : Entry) : (e.rename r).Regular ↔ e.Regular := by
  cases e <;> rfl

/-- Entries may be seeded under their new names if they may be under the old ones. -/
theorem EntryPool.Regular.rename {es : EntryPool} (h : es.Regular) (r : Renaming) :
    (es.map (·.rename r) (Entry.width_rename r)).Regular := by
  have hhas : ∀ {slot : Index} {e : Entry}, es.Has slot e →
      (es.map (·.rename r) (Entry.width_rename r)).Has slot (e.rename r) := by
    intro slot e he
    rw [EntryPool.Has, EntryPool.toList_map]
    exact List.mem_map_of_mem he
  refine ⟨?_, ?_⟩
  · rw [EntryPool.toList_map, List.forall_mem_map]
    exact fun item hitem => (item.2.regular_rename r).2 (h.entries item hitem)
  · rw [EntryPool.toList_map, List.forall_mem_map]
    rintro ⟨slot, e⟩ hitem
    have hanchors := h.anchors _ hitem
    cases e with
    | rawString text =>
      obtain ⟨body, hbody⟩ := hanchors
      exact ⟨body, hhas hbody⟩
    | methodHandle kind member =>
      rcases hanchors with ⟨m, hm⟩ | ⟨m, ofInterface, hm⟩
      · exact .inl ⟨_, hhas hm⟩
      · exact .inr ⟨_, ofInterface, hhas hm⟩
    | _ => trivial

/-! ## Classes -/

namespace ClassTree

/-- A class tree that may have been read may have been read with its new names. -/
theorem Regular.rename {c : ClassTree} (h : c.Regular) (r : Renaming) : (c.rename r).Regular where
  version := h.version
  constants := h.constants.rename r
  interfaces := by simpa [ClassTree.rename] using h.interfaces
  fieldCount := by simpa [ClassTree.rename] using h.fieldCount
  fields := List.forall_mem_map.2 fun f hf => (h.fields f hf).rename r
  methodCount := by simpa [ClassTree.rename] using h.methodCount
  methods := List.forall_mem_map.2 fun m hm => (h.methods m hm).rename r c.name
  metadata := h.metadata.rename r

/-- New names do not matter for the lengths of attributes. -/
theorem attributesFit_rename {c : ClassTree} {r : Renaming} :
    (c.rename r).AttributesFit ↔ c.AttributesFit := by
  have hfields :
      (∀ f ∈ (c.rename r).fields, f.metadata.Fits) ↔ ∀ f ∈ c.fields, f.metadata.Fits := by
    simp [ClassTree.rename, FieldTree.rename, Metadata.fits_rename]
  have hmethods : (∀ m ∈ (c.rename r).methods, m.Fits) ↔ ∀ m ∈ c.methods, m.Fits := by
    simp [ClassTree.rename, MethodTree.fits_rename]
  constructor
  · rintro ⟨hf, hm, hc⟩
    exact ⟨hfields.1 hf, hmethods.1 hm, (c.metadata.fits_rename r).1 hc⟩
  · rintro ⟨hf, hm, hc⟩
    exact ⟨hfields.2 hf, hmethods.2 hm, (c.metadata.fits_rename r).2 hc⟩

/-- New names do not make annotations longer. -/
theorem bodiesFit_rename {c : ClassTree} {r : Renaming} : (c.rename r).BodiesFit ↔ c.BodiesFit := by
  have hmetadatas : (c.rename r).metadatas = c.metadatas.map fun m => m.rename r := by
    simp only [metadatas, ClassTree.rename, List.map_cons, List.map_append, List.map_map]
    rfl
  rw [BodiesFit, BodiesFit, hmetadatas, List.forall_mem_map]
  simp [Metadata.rename, Annotation.bodySize, Function.comp_def, Annotation.size_map]

/-- The patches for development change flags of methods only. -/
theorem widen_eq (s : Settings) (c : ClassTree) : ∃ methods,
    c.widen s = { c with methods } ∧ List.Forall₂ (fun m m' => ∃ access, m' = { m with access })
      c.methods methods := by
  rw [widen]
  split
  · refine ⟨_, rfl, ?_⟩
    rw [List.forall₂_map_right_iff, List.forall₂_same]
    exact fun m _ => m.widen_eq s
  · refine ⟨c.methods, rfl, ?_⟩
    rw [List.forall₂_same]
    exact fun m _ => ⟨m.access, rfl⟩

/-- A class tree that may have been read may have been read with other flags. -/
theorem Regular.widen {c : ClassTree} (h : c.Regular) (s : Settings) : (c.widen s).Regular := by
  obtain ⟨methods, hwiden, hmethods⟩ := c.widen_eq s
  rw [hwiden]
  refine { h with methodCount := hmethods.length_eq ▸ h.methodCount, methods := fun m' hm' => ?_ }
  obtain ⟨m, hm, access, rfl⟩ := exists_of_forall₂_right hmethods hm'
  exact ⟨(h.methods m hm).count, (h.methods m hm).parts⟩

end ClassTree

end Crosswalk
