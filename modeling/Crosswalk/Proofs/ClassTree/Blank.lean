import Crosswalk.Proofs.ClassTree.Readable

/-!
# Slots that are not looked at

A class tree keeps some slots as they are read: of the classes that handlers catch, and of the
constants in annotations. A blank class tree has none of them, and does not tell the kinds of its
method handles either. It is readable exactly if the class tree is (`ClassTree.readable_blank`), so
none of this is looked at when a class is read.
-/

namespace Crosswalk

/-! ## Changes that do not matter -/

section Changes

variable {α β : Type} {f : α → α} {l : List α}

/-- If a change of items does not matter to a property, it does not matter to all items having it.
-/
theorem forall_mem_map_same {p : α → Prop} (h : ∀ a, p (f a) ↔ p a) :
    (∀ a ∈ l.map f, p a) ↔ ∀ a ∈ l, p a := by
  rw [List.forall_mem_map]
  exact forall₂_congr fun a _ => h a

/-- If a change of items does not matter to what each gives, it does not matter to what all give. -/
theorem flatMap_map_same {g : α → List β} (h : ∀ a, g (f a) = g a) :
    (l.map f).flatMap g = l.flatMap g := by
  rw [List.flatMap_map]
  exact List.flatMap_congr fun a _ => h a

end Changes

/-! ## Annotations -/

namespace Piece

/-- A piece without the slot of a constant. -/
def blank : Piece → Piece
  | const form _ => const form 0
  | piece => piece

/-- A piece without its slot is regular if the piece is. -/
theorem regular_blank (piece : Piece) : piece.blank.Regular ↔ piece.Regular := by
  cases piece <;> rfl

theorem size_blank (piece : Piece) : piece.blank.size = piece.size := by
  cases piece <;> rfl

theorem text?_blank (piece : Piece) : piece.blank.text? = piece.text? := by
  cases piece <;> rfl

theorem needs_blank (piece : Piece) : piece.blank.needs = piece.needs := by
  cases piece <;> rfl

end Piece

mutual

/-- An annotation without the slots of constants. -/
def Annotation.blank : Annotation → Annotation
  | .mk type elements => .mk type (Element.blankAll elements)

/-- Elements without the slots of constants. -/
def Element.blankAll : List Element → List Element
  | [] => []
  | element :: rest => element.blank :: Element.blankAll rest

/-- An element without the slots of constants. -/
def Element.blank : Element → Element
  | .mk name value => .mk name value.blank

/-- A value without the slots of constants. -/
def ElementValue.blank : ElementValue → ElementValue
  | .const tag _ => .const tag 0
  | .enum descriptor name => .enum descriptor name
  | .classInfo descriptor => .classInfo descriptor
  | .nested value => .nested value.blank
  | .array values => .array (ElementValue.blankAll values)

/-- Values without the slots of constants. -/
def ElementValue.blankAll : List ElementValue → List ElementValue
  | [] => []
  | value :: rest => value.blank :: ElementValue.blankAll rest

end

/-- No element is lost. -/
theorem Element.length_blankAll (elements : List Element) :
    (Element.blankAll elements).length = elements.length := by
  induction elements with
  | nil => rfl
  | cons element rest ih => rw [Element.blankAll, List.length_cons, List.length_cons, ih]

/-- No value is lost. -/
theorem ElementValue.length_blankAll (values : List ElementValue) :
    (ElementValue.blankAll values).length = values.length := by
  induction values with
  | nil => rfl
  | cons value rest ih => rw [ElementValue.blankAll, List.length_cons, List.length_cons, ih]

mutual

/-- The pieces of a blank annotation are blank. -/
theorem Annotation.pieces_blank : ∀ a : Annotation, a.blank.pieces = a.pieces.map Piece.blank
  | .mk type elements => by
    simp [Piece.blank, Annotation.blank, Annotation.pieces, Element.length_blankAll,
      Element.piecesAll_blankAll elements]

/-- The pieces of elements lose their slots one by one. -/
theorem Element.piecesAll_blankAll :
    ∀ l : List Element,
      Element.piecesAll (Element.blankAll l) = (Element.piecesAll l).map Piece.blank
  | [] => by simp [Element.blankAll, Element.piecesAll]
  | element :: rest => by
    simp [Element.blankAll, Element.piecesAll, Element.pieces_blank element,
      Element.piecesAll_blankAll rest]

/-- The pieces of an element lose their slots one by one. -/
theorem Element.pieces_blank : ∀ e : Element, e.blank.pieces = e.pieces.map Piece.blank
  | .mk name value => by
    simp [Element.blank, Element.pieces, Piece.blank, ElementValue.pieces_blank value]

/-- The pieces of a value lose their slots one by one. -/
theorem ElementValue.pieces_blank :
    ∀ v : ElementValue, v.blank.pieces = v.pieces.map Piece.blank
  | .const tag index => by simp [ElementValue.blank, ElementValue.pieces, Piece.blank]
  | .enum descriptor name => by simp [ElementValue.blank, ElementValue.pieces, Piece.blank]
  | .classInfo descriptor => by simp [ElementValue.blank, ElementValue.pieces, Piece.blank]
  | .nested value => by
    simp [ElementValue.blank, ElementValue.pieces, Piece.blank, Annotation.pieces_blank value]
  | .array values => by
    simp [ElementValue.blank, ElementValue.pieces, Piece.blank, ElementValue.length_blankAll,
      ElementValue.piecesAll_blankAll values]

/-- The pieces of values lose their slots one by one. -/
theorem ElementValue.piecesAll_blankAll :
    ∀ l : List ElementValue,
      ElementValue.piecesAll (ElementValue.blankAll l) =
        (ElementValue.piecesAll l).map Piece.blank
  | [] => by simp [ElementValue.blankAll, ElementValue.piecesAll]
  | value :: rest => by
    simp [ElementValue.blankAll, ElementValue.piecesAll, ElementValue.pieces_blank value,
      ElementValue.piecesAll_blankAll rest]

end

namespace Annotation

/-- An annotation without its slots is regular if the annotation is. -/
theorem regular_blank (a : Annotation) : a.blank.Regular ↔ a.Regular := by
  unfold Regular
  rw [pieces_blank]
  exact forall_mem_map_same fun piece => piece.regular_blank

theorem size_blank (a : Annotation) : a.blank.size = a.size := by
  unfold size
  rw [pieces_blank, List.map_map]
  exact congrArg List.sum (List.map_congr_left fun piece _ => piece.size_blank)

theorem texts_blank (a : Annotation) : a.blank.texts = a.texts := by
  unfold texts
  rw [pieces_blank, List.filterMap_map]
  exact List.filterMap_congr fun piece _ => piece.text?_blank

theorem needs_blank (a : Annotation) : a.blank.needs = a.needs := by
  unfold needs
  rw [pieces_blank]
  exact flatMap_map_same fun piece => piece.needs_blank

end Annotation

/-! ## Method bodies -/

namespace Code

/-- A body whose handlers catch everything. -/
def blank (code : Code) : Code :=
  { code with handlers := code.handlers.map fun handler => { handler with caught := 0 } }

/-- Handlers are not among the parts of a body. -/
theorem parts_blank (code : Code) : code.blank.parts = code.parts := rfl

/-- A body without its slots has the same size. -/
theorem size_blank (code : Code) : code.blank.size = code.size := by
  unfold size
  rw [parts_blank, blank, List.length_map]

theorem regular_blank (code : Code) : code.blank.Regular ↔ code.Regular := by
  have hlength : code.blank.handlers.length = code.handlers.length := List.length_map _
  constructor
  · intro h
    exact ⟨h.bytecode, hlength ▸ h.handlers, h.count, h.parts, code.size_blank ▸ h.size⟩
  · intro h
    exact ⟨h.bytecode, hlength.symm ▸ h.handlers, h.count, h.parts, code.size_blank.symm ▸ h.size⟩

end Code

/-! ## Metadata -/

namespace Metadata

/-- Metadata whose annotations are blank. -/
def blank (m : Metadata) : Metadata :=
  { m with
    visible := m.visible.map Annotation.blank
    invisible := m.invisible.map Annotation.blank }

/-- A part whose annotations are blank. -/
def Part.blank : Part → Part
  | visible as => visible (as.map Annotation.blank)
  | invisible as => invisible (as.map Annotation.blank)
  | part => part

/-- The parts of metadata lose their slots one by one. -/
theorem parts_blank (m : Metadata) : m.blank.parts = m.parts.map Part.blank := by
  unfold parts
  rw [List.map_append, List.map_append, List.map_append,
    map_unlessEmpty (g := Part.blank) Part.visible Part.visible fun _ => rfl,
    map_unlessEmpty (g := Part.blank) Part.invisible Part.invisible fun _ => rfl]
  simp only [blank, Option.toList_map, List.map_map]
  rfl

/-- A part without its slots belongs to the same attribute. -/
theorem Part.name_blank (part : Part) : part.blank.name = part.name := by
  cases part <;> rfl

theorem Part.regular_blank (part : Part) : part.blank.Regular ↔ part.Regular := by
  cases part <;> simp [Part.blank, Regular, Annotation.regular_blank]

theorem Part.fits_blank (part : Part) : part.blank.Fits ↔ part.Fits := by
  cases part <;>
    simp [Part.blank, Fits, Annotation.bodySize, Function.comp_def, Annotation.size_blank]

theorem Part.texts_blank (part : Part) : part.blank.texts = part.texts := by
  cases part <;> simp [Part.blank, texts, List.flatMap_map, Annotation.texts_blank]

theorem Part.needs_blank (part : Part) : part.blank.needs = part.needs := by
  cases part <;> simp [Part.blank, needs, List.flatMap_map, Annotation.needs_blank]

/-- Metadata without their slots are regular if the metadata are. -/
theorem regular_blank (m : Metadata) : m.blank.Regular ↔ m.Regular := by
  have hcount : m.blank.parts.length = m.parts.length := by
    rw [parts_blank, List.length_map]
  have hparts : (∀ part ∈ m.blank.parts, part.Regular) ↔ ∀ part ∈ m.parts, part.Regular := by
    rw [parts_blank]
    exact forall_mem_map_same fun part => part.regular_blank
  exact ⟨fun h => ⟨hcount ▸ h.count, hparts.1 h.parts⟩,
    fun h => ⟨hcount.symm ▸ h.count, hparts.2 h.parts⟩⟩

theorem fits_blank (m : Metadata) : m.blank.Fits ↔ m.Fits := by
  unfold Fits
  rw [parts_blank]
  exact forall_mem_map_same fun part => part.fits_blank

theorem texts_blank (m : Metadata) : m.blank.texts = m.texts := by
  unfold texts
  rw [parts_blank]
  exact flatMap_map_same fun part => part.texts_blank

theorem needs_blank (m : Metadata) : m.blank.needs = m.needs := by
  unfold needs
  rw [parts_blank]
  exact flatMap_map_same fun part => part.needs_blank

end Metadata

/-! ## Members -/

/-- A field whose annotations are blank. -/
def FieldTree.blank (f : FieldTree) : FieldTree :=
  { f with metadata := f.metadata.blank }

namespace MethodTree

/-- A method whose annotations and whose body are blank. -/
def blank (m : MethodTree) : MethodTree :=
  { m with metadata := m.metadata.blank, code := m.code.map Code.blank }

/-- A part that is blank. -/
def blankPart : Part → Part
  | .inl part => .inl part.blank
  | .inr code => .inr code.blank

/-- The parts of a method lose their slots one by one. -/
theorem parts_blank (m : MethodTree) : m.blank.parts = m.parts.map blankPart := by
  unfold parts
  rw [List.map_append, List.map_map]
  simp only [blank, Metadata.parts_blank, Option.toList_map, List.map_map, Option.map_map]
  rfl

/-- A part of a method without its slots is regular if the part is. -/
theorem partRegular_blankPart (part : Part) : PartRegular (blankPart part) ↔ PartRegular part := by
  cases part with
  | inl part => exact and_congr part.regular_blank (by rw [part.name_blank])
  | inr code => exact code.regular_blank

/-- A method without its slots is regular if the method is. -/
theorem regular_blank (m : MethodTree) : m.blank.Regular ↔ m.Regular := by
  have hcount : m.blank.parts.length = m.parts.length := by
    rw [parts_blank, List.length_map]
  have hparts :
      (∀ part ∈ m.blank.parts, PartRegular part) ↔ ∀ part ∈ m.parts, PartRegular part := by
    rw [parts_blank]
    exact forall_mem_map_same partRegular_blankPart
  exact ⟨fun h => ⟨hcount ▸ h.count, hparts.1 h.parts⟩,
    fun h => ⟨hcount.symm ▸ h.count, hparts.2 h.parts⟩⟩

theorem fits_blank (m : MethodTree) : m.blank.Fits ↔ m.Fits := by
  unfold Fits
  rw [parts_blank]
  refine forall_mem_map_same fun part => ?_
  cases part with
  | inl part => exact part.fits_blank
  | inr code => exact Iff.rfl

theorem texts_blank (m : MethodTree) : m.blank.texts = m.texts := by
  unfold texts
  rw [parts_blank]
  refine congrArg (· ++ _) (flatMap_map_same fun part => ?_)
  cases part with
  | inl part => exact part.texts_blank
  | inr code => rfl

theorem needs_blank (m : MethodTree) : m.blank.needs = m.needs := by
  unfold needs
  rw [parts_blank]
  refine congrArg (· ++ _) (flatMap_map_same fun part => ?_)
  cases part with
  | inl part => exact part.needs_blank
  | inr code => rfl

end MethodTree

/-! ## The pool -/

/-- An entry that does not tell the kind of a method handle. -/
def Entry.blank : Entry → Entry
  | .methodHandle _ member => .methodHandle .getField member
  | entry => entry

namespace Entry

/-- An entry without its slots is as wide as the entry. -/
theorem width_blank (e : Entry) : e.blank.width = e.width := by
  cases e <;> rfl

theorem regular_blank (e : Entry) : e.blank.Regular ↔ e.Regular := by
  cases e <;> rfl

theorem texts_blank (e : Entry) : e.blank.texts = e.texts := by
  cases e <;> rfl

theorem needs_blank (e : Entry) : e.blank.needs = e.needs := by
  cases e <;> rfl

/-- Only method handles look another way. -/
theorem blank_eq_iff {e other : Entry} (h : ∀ kind member, other ≠ .methodHandle kind member) :
    e.blank = other ↔ e = other := by
  cases e with
  | methodHandle kind member =>
    exact iff_of_false (h _ _).symm (h _ _).symm
  | _ => rfl

end Entry

namespace EntryPool

/-- The entries of a pool without the kinds of the method handles. -/
def blank (es : EntryPool) : EntryPool :=
  es.map Entry.blank Entry.width_blank

variable {es : EntryPool}

/-- The entries of a pool lose their slots where they are. -/
theorem toList_blank (es : EntryPool) :
    es.blank.toList = es.toList.map fun item => (item.1, item.2.blank) :=
  toList_map _ _ es

/-- Whatever is no method handle stays. -/
theorem mem_blank_iff {slot : Nat} {e : Entry} (h : ∀ kind member, e ≠ .methodHandle kind member) :
    (slot, e) ∈ es.blank.toList ↔ (slot, e) ∈ es.toList := by
  rw [toList_blank, List.mem_map]
  constructor
  · rintro ⟨⟨slot', e'⟩, hitem, hsame⟩
    obtain ⟨rfl, hblank⟩ := Prod.mk.inj hsame
    obtain rfl : e' = e := (Entry.blank_eq_iff h).1 hblank
    exact hitem
  · intro hitem
    exact ⟨_, hitem, Prod.ext rfl ((Entry.blank_eq_iff h).2 rfl)⟩

/-- What a blank entry points at is there if what the entry points at is. -/
theorem anchors_blank (e : Entry) : es.blank.Anchors e.blank ↔ es.Anchors e := by
  -- No entry is anchored by a method handle, so what anchors it stays.
  have hhas : ∀ (slot : Index) (other : Entry), (∀ kind member, other ≠ .methodHandle kind member) →
      (es.blank.Has slot other ↔ es.Has slot other) := fun slot other h => mem_blank_iff h
  cases e with
  | rawString text => exact exists_congr fun body => hhas text _ (by simp)
  | methodHandle kind member =>
    exact or_congr (exists_congr fun m => hhas member _ (by simp))
      (exists_congr fun m => exists_congr fun ofInterface => hhas member _ (by simp))
  | _ => rfl

/-- A pool without the slots in its entries is regular if the pool is. -/
theorem regular_blank : es.blank.Regular ↔ es.Regular := by
  have hentries : (∀ item ∈ es.blank.toList, item.2.Regular) ↔
      ∀ item ∈ es.toList, item.2.Regular := by
    rw [toList_blank, List.forall_mem_map]
    exact forall₂_congr fun item _ => item.2.regular_blank
  have hanchors : (∀ item ∈ es.blank.toList, es.blank.Anchors item.2) ↔
      ∀ item ∈ es.toList, es.Anchors item.2 := by
    rw [toList_blank, List.forall_mem_map]
    exact forall₂_congr fun item _ => anchors_blank item.2
  exact ⟨fun h => ⟨hentries.1 h.entries, hanchors.1 h.anchors⟩,
    fun h => ⟨hentries.2 h.entries, hanchors.2 h.anchors⟩⟩

theorem provides_blank (n : PoolBuilder.Need) : es.blank.Provides n ↔ es.Provides n :=
  exists_congr fun i => mem_blank_iff (by cases n <;> exact fun _ _ h => nomatch h)

theorem closed_blank : es.blank.Closed ↔ es.Closed := by
  unfold Closed
  rw [toList_blank, List.forall_mem_map]
  refine forall₂_congr fun item _ => ?_
  rw [item.2.needs_blank]
  exact forall₂_congr fun n _ => provides_blank n

end EntryPool

/-! ## Classes -/

namespace ClassTree

/-- A class without the slots that it keeps, and without the kinds of its method handles. -/
def blank (c : ClassTree) : ClassTree :=
  { c with
    fields := c.fields.map FieldTree.blank
    methods := c.methods.map MethodTree.blank
    metadata := c.metadata.blank
    constants := c.constants.blank }

/-- A class without its slots is regular if the class is. -/
theorem regular_blank {c : ClassTree} : c.blank.Regular ↔ c.Regular := by
  have hfields :
      (∀ f ∈ c.blank.fields, f.metadata.Regular) ↔ ∀ f ∈ c.fields, f.metadata.Regular := by
    unfold blank
    exact forall_mem_map_same fun f => f.metadata.regular_blank
  have hmethods : (∀ m ∈ c.blank.methods, m.Regular) ↔ ∀ m ∈ c.methods, m.Regular := by
    unfold blank
    exact forall_mem_map_same fun m => m.regular_blank
  have hfieldCount : c.blank.fields.length = c.fields.length := List.length_map _
  have hmethodCount : c.blank.methods.length = c.methods.length := List.length_map _
  constructor
  · intro h
    exact
      { version := h.version
        constants := EntryPool.regular_blank.1 h.constants
        interfaces := h.interfaces
        fieldCount := hfieldCount ▸ h.fieldCount
        fields := hfields.1 h.fields
        methodCount := hmethodCount ▸ h.methodCount
        methods := hmethods.1 h.methods
        metadata := c.metadata.regular_blank.1 h.metadata }
  · intro h
    exact
      { version := h.version
        constants := EntryPool.regular_blank.2 h.constants
        interfaces := h.interfaces
        fieldCount := hfieldCount.symm ▸ h.fieldCount
        fields := hfields.2 h.fields
        methodCount := hmethodCount.symm ▸ h.methodCount
        methods := hmethods.2 h.methods
        metadata := c.metadata.regular_blank.2 h.metadata }

theorem needs_blank (c : ClassTree) : c.blank.needs = c.needs := by
  have hfields : c.blank.fields.flatMap FieldTree.needs = c.fields.flatMap FieldTree.needs := by
    unfold blank
    apply flatMap_map_same
    intro f
    exact congrArg (· ++ _) f.metadata.needs_blank
  have hmethods :
      c.blank.methods.flatMap MethodTree.needs = c.methods.flatMap MethodTree.needs := by
    unfold blank
    exact flatMap_map_same fun m => m.needs_blank
  have hmetadata : c.blank.metadata.needs = c.metadata.needs := c.metadata.needs_blank
  unfold needs
  rw [hfields, hmethods, hmetadata]
  rfl

theorem texts_blank (c : ClassTree) : c.blank.texts = c.texts := by
  have hfields : c.blank.fields.flatMap FieldTree.texts = c.fields.flatMap FieldTree.texts := by
    unfold blank
    apply flatMap_map_same
    intro f
    exact congrArg (· ++ _) f.metadata.texts_blank
  have hmethods :
      c.blank.methods.flatMap MethodTree.texts = c.methods.flatMap MethodTree.texts := by
    unfold blank
    exact flatMap_map_same fun m => m.texts_blank
  have hmetadata : c.blank.metadata.texts = c.metadata.texts := c.metadata.texts_blank
  have hconstants : (c.blank.constants.toList.flatMap fun item => item.2.texts) =
      c.constants.toList.flatMap fun item => item.2.texts := by
    have hlist : c.blank.constants.toList = _ := EntryPool.toList_blank c.constants
    rw [hlist, List.flatMap_map]
    exact List.flatMap_congr fun item _ => item.2.texts_blank
  unfold texts bodyTexts
  rw [hconstants, hfields, hmethods, hmetadata]
  rfl

theorem fits_blank {c : ClassTree} : c.blank.Fits ↔ c.Fits := by
  have hfields : (∀ f ∈ c.blank.fields, f.metadata.Fits) ↔ ∀ f ∈ c.fields, f.metadata.Fits := by
    unfold blank
    exact forall_mem_map_same fun f => f.metadata.fits_blank
  have hmethods : (∀ m ∈ c.blank.methods, m.Fits) ↔ ∀ m ∈ c.methods, m.Fits := by
    unfold blank
    exact forall_mem_map_same fun m => m.fits_blank
  have htexts := c.texts_blank
  constructor
  · rintro ⟨htext, hf, hm, hc⟩
    exact ⟨htexts ▸ htext, hfields.1 hf, hmethods.1 hm, c.metadata.fits_blank.1 hc⟩
  · rintro ⟨htext, hf, hm, hc⟩
    exact ⟨htexts.symm ▸ htext, hfields.2 hf, hmethods.2 hm, c.metadata.fits_blank.2 hc⟩

/-- What a class keeps by slot is not looked at when it is read. -/
theorem readable_blank {c : ClassTree} : c.blank.Readable ↔ c.Readable := by
  have hneeds : (∀ n ∈ c.blank.needs, c.blank.constants.Provides n) ↔
      ∀ n ∈ c.needs, c.constants.Provides n := by
    rw [needs_blank]
    exact forall₂_congr fun n _ => EntryPool.provides_blank n
  constructor
  · intro h
    exact ⟨regular_blank.1 h.regular, EntryPool.closed_blank.1 h.closed, h.room, hneeds.1 h.needs⟩
  · intro h
    exact ⟨regular_blank.2 h.regular, EntryPool.closed_blank.2 h.closed, h.room, hneeds.2 h.needs⟩

end ClassTree

end Crosswalk
