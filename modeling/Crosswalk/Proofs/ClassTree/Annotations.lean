import Crosswalk.ClassTree.Writing
import Crosswalk.Proofs.Pool.Building
import Crosswalk.Proofs.Reader.Bodies

/-!
# Annotations read back

An annotation nests, but its bytes are a row of simple pieces. Writing is described piece by piece
(`Annotation.writes`), and so is what a change of descriptors does; only reading follows the nesting
(`Annotation.reads`).
-/

namespace Crosswalk

open Reader (Reads Yields)
open PoolBuilder (text Writes)

/-! ## Pieces -/

/-- The slot of a text is written as bytes. -/
theorem writes_textSlot (s : String) :
    Writes (textSlot s) [s] fun p bytes => ∃ i, p.utf8 i = .ok s ∧ bytes = Bytes.ofUInt16 i :=
  (PoolBuilder.writes_text s).map fun _ i hi => ⟨i, hi, rfl⟩

/-- A piece of the bytes of an annotation. -/
inductive Piece
  /-- What announces the form of a value. -/
  | tag (byte : UInt8)
  /-- The number of elements or values. -/
  | count (n : Nat)
  | name (text : String)
  | descriptor (text : String)
  | const (form : UInt8) (index : Index)

namespace Piece

/-- Every reader accepts the piece. -/
def Regular : Piece → Prop
  | count n => n < 65536
  | const form _ => ElementValue.isConstTag form = true
  | _ => True

/-- The number of bytes. -/
def size : Piece → Nat
  | tag _ => 1
  | count _ | name _ | descriptor _ => 2
  | const _ _ => 3

/-- The text that needs a constant. -/
def text? : Piece → Option String
  | name text | descriptor text => some text
  | _ => none

/-- The constant that is pointed at by slot. -/
def const? : Piece → Option (UInt8 × Index)
  | const form index => some (form, index)
  | _ => none

/-- Changes a descriptor. -/
def map (f : String → String) : Piece → Piece
  | descriptor text => descriptor (f text)
  | piece => piece

/-- The bytes of a piece. -/
def write : Piece → Build Bytes
  | tag byte => pure [byte]
  | count n => pure (Bytes.count n)
  | name text | descriptor text => textSlot text
  | const form index => pure (form :: Bytes.ofUInt16 index)

/-- The bytes are those of the piece, with slots of the pool. -/
def Stands (p : ConstantPool) : Piece → Bytes → Prop
  | tag byte, s => s = [byte]
  | count n, s => s = Bytes.count n
  | name text, s | descriptor text, s => ∃ i, p.utf8 i = .ok text ∧ s = Bytes.ofUInt16 i
  | const form index, s => s = form :: Bytes.ofUInt16 index

/-- A piece stays regular when its descriptors change. -/
theorem regular_map (f : String → String) (piece : Piece) :
    (piece.map f).Regular ↔ piece.Regular := by
  cases piece <;> rfl

theorem size_map (f : String → String) (piece : Piece) : (piece.map f).size = piece.size := by
  cases piece <;> rfl

theorem const?_map (f : String → String) (piece : Piece) : (piece.map f).const? = piece.const? := by
  cases piece <;> rfl

/-- The bytes of pieces in a row. -/
def writeAll : List Piece → Build Bytes
  | [] => pure []
  | piece :: rest => do
    let first ← piece.write
    let rest ← writeAll rest
    pure (first ++ rest)

/-- The bytes are those of the pieces in a row. -/
def StandAll (p : ConstantPool) : List Piece → Bytes → Prop
  | [], s => s = []
  | piece :: rest, s => ∃ t u, s = t ++ u ∧ piece.Stands p t ∧ StandAll p rest u

/-- Pieces are written one after the other. -/
theorem writeAll_append (l m : List Piece) :
    writeAll (l ++ m) = (do
      let first ← writeAll l
      let rest ← writeAll m
      pure (first ++ rest)) := by
  induction l with
  | nil => simp [writeAll]
  | cons piece l ih =>
    rw [List.cons_append, writeAll, writeAll, ih]
    simp only [bind_assoc, pure_bind, List.append_assoc]

/-- Pieces stand one after the other. -/
theorem standAll_append {p : ConstantPool} {l m : List Piece} {s : Bytes} :
    StandAll p (l ++ m) s ↔ ∃ t u, s = t ++ u ∧ StandAll p l t ∧ StandAll p m u := by
  induction l generalizing s with
  | nil => simp [StandAll]
  | cons piece l ih =>
    simp only [List.cons_append, StandAll, ih]
    constructor
    · rintro ⟨t, u, rfl, hpiece, t', u', rfl, hl, hm⟩
      exact ⟨t ++ t', u', by simp, ⟨t, t', rfl, hpiece, hl⟩, hm⟩
    · rintro ⟨t, u, rfl, ⟨t', u', rfl, hpiece, hl⟩, hm⟩
      exact ⟨t', u' ++ u, by simp, hpiece, u', u, rfl, hl, hm⟩

/-- A piece has as many bytes as its size says. -/
theorem Stands.length {p : ConstantPool} {piece : Piece} {s : Bytes} (h : piece.Stands p s) :
    s.length = piece.size := by
  cases piece with
  | tag _ | count _ | const _ _ =>
    subst h
    rfl
  | name _ | descriptor _ =>
    obtain ⟨i, -, rfl⟩ := h
    rfl

/-- The number of bytes of pieces in a row. -/
theorem StandAll.length {p : ConstantPool} {l : List Piece} {s : Bytes} (h : StandAll p l s) :
    s.length = (l.map size).sum := by
  induction l generalizing s with
  | nil =>
    subst h
    rfl
  | cons piece l ih =>
    obtain ⟨t, u, rfl, hpiece, hl⟩ := h
    rw [List.length_append, hpiece.length, ih hl, List.map_cons, List.sum_cons]

/-- Writing a piece asks for its text, if it has one, and leaves its bytes. -/
theorem writes_write (piece : Piece) :
    Writes piece.write piece.text?.toList fun p s => piece.Stands p s := by
  cases piece with
  | tag _ | count _ | const _ _ => exact Writes.pure fun _ => rfl
  | name text | descriptor text => exact writes_textSlot text

/-- Pieces in a row are written as their bytes in a row. -/
theorem writes_writeAll (l : List Piece) :
    Writes (writeAll l) (l.filterMap text?) fun p s => StandAll p l s := by
  have htexts :
      ∀ l : List Piece, l.filterMap text? = l.flatMap fun piece => piece.text?.toList := by
    intro l
    induction l with
    | nil => rfl
    | cons piece l ih => cases h : piece.text? <;> simp [h, ih]
  rw [htexts]
  induction l with
  | nil => exact Writes.pure fun _ => rfl
  | cons piece l ih =>
    rw [List.flatMap_cons]
    refine (writes_write piece).bind fun t => ih.map fun p u hu ht => ?_
    exact ⟨t, u, rfl, ht, hu⟩

end Piece

/-! ## An annotation as pieces -/

mutual

/-- The pieces of an annotation. -/
def Annotation.pieces : Annotation → List Piece
  | .mk type elements =>
    .descriptor type :: .count elements.length :: Element.piecesAll elements

/-- The pieces of elements in a row. -/
def Element.piecesAll : List Element → List Piece
  | [] => []
  | element :: rest => element.pieces ++ Element.piecesAll rest

/-- The pieces of an element. -/
def Element.pieces : Element → List Piece
  | .mk name value => .name name :: value.pieces

/-- The pieces of a value. -/
def ElementValue.pieces : ElementValue → List Piece
  | .const tag index => [.const tag index]
  | .enum descriptor name => [.tag 101, .descriptor descriptor, .name name]
  | .classInfo descriptor => [.tag 99, .descriptor descriptor]
  | .nested value => .tag 64 :: value.pieces
  | .array values => .tag 91 :: .count values.length :: ElementValue.piecesAll values

/-- The pieces of values in a row. -/
def ElementValue.piecesAll : List ElementValue → List Piece
  | [] => []
  | value :: rest => value.pieces ++ ElementValue.piecesAll rest

end

/-- There are as many elements as before. -/
theorem Element.length_mapAll (f : String → String) (elements : List Element) :
    (Element.mapAll f elements).length = elements.length := by
  induction elements with
  | nil => rfl
  | cons element rest ih => rw [Element.mapAll, List.length_cons, List.length_cons, ih]

/-- There are as many values as before. -/
theorem ElementValue.length_mapAll (f : String → String) (values : List ElementValue) :
    (ElementValue.mapAll f values).length = values.length := by
  induction values with
  | nil => rfl
  | cons value rest ih => rw [ElementValue.mapAll, List.length_cons, List.length_cons, ih]

mutual

/-- Changing the descriptors of an annotation changes those among its pieces. -/
theorem Annotation.pieces_map (f : String → String) :
    ∀ a : Annotation, (a.map f).pieces = a.pieces.map (Piece.map f)
  | .mk type elements => by
    simp [Piece.map, Annotation.map, Annotation.pieces, Element.length_mapAll,
      Element.piecesAll_mapAll f elements]

/-- The pieces of elements change one by one. -/
theorem Element.piecesAll_mapAll (f : String → String) :
    ∀ l : List Element,
      Element.piecesAll (Element.mapAll f l) = (Element.piecesAll l).map (Piece.map f)
  | [] => by simp [Element.mapAll, Element.piecesAll]
  | element :: rest => by
    simp [Element.mapAll, Element.piecesAll, Element.pieces_map f element,
      Element.piecesAll_mapAll f rest]

/-- The pieces of an element change one by one. -/
theorem Element.pieces_map (f : String → String) :
    ∀ e : Element, (e.map f).pieces = e.pieces.map (Piece.map f)
  | .mk name value => by
    simp [Element.map, Element.pieces, Piece.map, ElementValue.pieces_map f value]

/-- The pieces of a value change one by one. -/
theorem ElementValue.pieces_map (f : String → String) :
    ∀ v : ElementValue, (v.map f).pieces = v.pieces.map (Piece.map f)
  | .const tag index => by simp [ElementValue.map, ElementValue.pieces, Piece.map]
  | .enum descriptor name => by simp [ElementValue.map, ElementValue.pieces, Piece.map]
  | .classInfo descriptor => by simp [ElementValue.map, ElementValue.pieces, Piece.map]
  | .nested value => by
    simp [ElementValue.map, ElementValue.pieces, Piece.map, Annotation.pieces_map f value]
  | .array values => by
    simp [ElementValue.map, ElementValue.pieces, Piece.map, ElementValue.length_mapAll,
      ElementValue.piecesAll_mapAll f values]

/-- The pieces of values change one by one. -/
theorem ElementValue.piecesAll_mapAll (f : String → String) :
    ∀ l : List ElementValue,
      ElementValue.piecesAll (ElementValue.mapAll f l) =
        (ElementValue.piecesAll l).map (Piece.map f)
  | [] => by simp [ElementValue.mapAll, ElementValue.piecesAll]
  | value :: rest => by
    simp [ElementValue.mapAll, ElementValue.piecesAll, ElementValue.pieces_map f value,
      ElementValue.piecesAll_mapAll f rest]

end

mutual

/-- An annotation is written as its pieces are. -/
theorem Annotation.write_eq : ∀ a : Annotation, a.write = Piece.writeAll a.pieces
  | .mk type elements => by
    simp [Piece.writeAll, Piece.write, Annotation.write, Annotation.pieces,
      Element.writeAll_eq elements]

/-- Elements are written piece by piece. -/
theorem Element.writeAll_eq :
    ∀ l : List Element, Element.writeAll l = Piece.writeAll (Element.piecesAll l)
  | [] => by simp [Element.writeAll, Element.piecesAll, Piece.writeAll]
  | element :: rest => by
    rw [Element.writeAll, Element.piecesAll, Piece.writeAll_append, Element.write_eq element,
      Element.writeAll_eq rest]

/-- An element is written piece by piece. -/
theorem Element.write_eq : ∀ e : Element, e.write = Piece.writeAll e.pieces
  | .mk name value => by
    rw [Element.write, Element.pieces, Piece.writeAll, ElementValue.write_eq value]
    rfl

/-- A value is written piece by piece. -/
theorem ElementValue.write_eq : ∀ v : ElementValue, v.write = Piece.writeAll v.pieces
  | .const tag index => by
    simp [ElementValue.write, ElementValue.pieces, Piece.writeAll, Piece.write]
  | .enum descriptor name => by
    simp [ElementValue.write, ElementValue.pieces, Piece.writeAll, Piece.write]
  | .classInfo descriptor => by
    simp [ElementValue.write, ElementValue.pieces, Piece.writeAll, Piece.write]
  | .nested value => by
    simp [ElementValue.write, ElementValue.pieces, Piece.writeAll, Piece.write,
      Annotation.write_eq value]
  | .array values => by
    simp [ElementValue.write, ElementValue.pieces, Piece.writeAll, Piece.write,
      ElementValue.writeAll_eq values]

/-- Values are written piece by piece. -/
theorem ElementValue.writeAll_eq :
    ∀ l : List ElementValue, ElementValue.writeAll l = Piece.writeAll (ElementValue.piecesAll l)
  | [] => by simp [ElementValue.writeAll, ElementValue.piecesAll, Piece.writeAll]
  | value :: rest => by
    rw [ElementValue.writeAll, ElementValue.piecesAll, Piece.writeAll_append,
      ElementValue.write_eq value, ElementValue.writeAll_eq rest]

end

/-! ## Reading what is written -/

section Reads

open Annotation (read pieces)

variable {s : Scope}

/-- An element is read if its name has a slot and its value is read. -/
theorem Element.reads_read {i : Index} {name : String} {value : ElementValue} {t : Bytes}
    {read : Reader Malformed ElementValue} (hi : s.pool.utf8 i = .ok name)
    (h : Reads read t value) :
    Reads (Element.read s read) (Bytes.ofUInt16 i ++ t) (.mk name value) :=
  (Scope.reads_utf8 hi).bind h.bind_pure

mutual

/-- The bytes of the pieces of an annotation are read as that annotation, if there is a byte for
every level of nesting. -/
theorem Annotation.reads : ∀ (a : Annotation) {t : Bytes} {depth : Nat},
    Piece.StandAll s.pool a.pieces t → (∀ piece ∈ a.pieces, piece.Regular) → t.length ≤ depth →
      Reads (read s (ElementValue.read s depth)) t a
  | .mk type elements, t, depth, h, hregular, hdepth => by
    obtain ⟨_, _, rfl, ⟨i, hi, rfl⟩, _, u, rfl, rfl, hall⟩ := h
    rw [List.length_append, List.length_append] at hdepth
    obtain ⟨us, rfl, hreads⟩ := Element.readsAll elements hall
      (fun piece hpiece => hregular piece (by simp [pieces, hpiece]))
      (by omega : u.length ≤ depth)
    have hcount : elements.length < 65536 :=
      hregular (.count elements.length) (by simp [pieces])
    exact (Scope.reads_utf8 hi).bind (Reads.counted hcount hreads).bind_pure

/-- Elements are read one by one from the bytes of their pieces. -/
theorem Element.readsAll : ∀ (l : List Element) {t : Bytes} {depth : Nat},
    Piece.StandAll s.pool (Element.piecesAll l) t →
      (∀ piece ∈ Element.piecesAll l, piece.Regular) → t.length ≤ depth →
      ∃ ts : List Bytes, ts.flatten = t ∧ List.Forall₂
        (fun e u => Reads (Element.read s (ElementValue.read s depth)) u e) l ts
  | [], t, depth, h, _, _ => by
    cases h
    exact ⟨[], rfl, .nil⟩
  | .mk name value :: rest, t, depth, h, hregular, hdepth => by
    obtain ⟨_, v, rfl, ⟨_, u, rfl, ⟨i, hi, rfl⟩, hvalue⟩, hrest⟩ := Piece.standAll_append.1 h
    rw [List.length_append, List.length_append] at hdepth
    obtain ⟨us, rfl, hreads⟩ := Element.readsAll rest hrest
      (fun piece hpiece => hregular piece (by simp [Element.piecesAll, hpiece]))
      (by omega : v.length ≤ depth)
    have hread := ElementValue.reads value hvalue
      (fun piece hpiece => hregular piece (by simp [Element.piecesAll, Element.pieces, hpiece]))
      (by omega : u.length ≤ depth)
    exact ⟨(Bytes.ofUInt16 i ++ u) :: us, rfl, .cons (Element.reads_read hi hread) hreads⟩

/-- A value is read from the bytes of its pieces if there are no more levels than bytes. -/
theorem ElementValue.reads : ∀ (v : ElementValue) {t : Bytes} {depth : Nat},
    Piece.StandAll s.pool v.pieces t → (∀ piece ∈ v.pieces, piece.Regular) → t.length ≤ depth →
      Reads (ElementValue.read s depth) t v
  | v, t, 0, h, _, hdepth => by
    have hlength := Piece.StandAll.length h
    cases v <;> simp [ElementValue.pieces, Piece.size] at hlength <;> omega
  | .const tag index, t, depth + 1, h, hregular, _ => by
    obtain ⟨_, _, rfl, rfl, rfl⟩ := h
    have htag : ElementValue.isConstTag tag = true :=
      hregular (.const tag index) (by simp [ElementValue.pieces])
    rw [List.append_nil]
    refine (Reads.u8 s.short tag).bind ?_
    rw [if_pos htag]
    exact (Reads.u16 s.short index).bind_pure
  | .enum descriptor name, t, depth + 1, h, _, _ => by
    obtain ⟨_, _, rfl, rfl, _, _, rfl, ⟨i, hi, rfl⟩, _, _, rfl, ⟨j, hj, rfl⟩, rfl⟩ := h
    rw [List.append_nil]
    exact (Reads.u8 s.short 101).bind ((Scope.reads_utf8 hi).bind (Scope.reads_utf8 hj).bind_pure)
  | .classInfo descriptor, t, depth + 1, h, _, _ => by
    obtain ⟨_, _, rfl, rfl, _, _, rfl, ⟨i, hi, rfl⟩, rfl⟩ := h
    rw [List.append_nil]
    exact (Reads.u8 s.short 99).bind (Scope.reads_utf8 hi).bind_pure
  | .nested value, t, depth + 1, h, hregular, hdepth => by
    obtain ⟨_, u, rfl, rfl, hvalue⟩ := h
    have hread := Annotation.reads value hvalue
      (fun piece hpiece => hregular piece (by simp [ElementValue.pieces, hpiece]))
      (Nat.le_of_succ_le_succ hdepth : u.length ≤ depth)
    exact (Reads.u8 s.short 64).bind hread.bind_pure
  | .array values, t, depth + 1, h, hregular, hdepth => by
    obtain ⟨_, _, rfl, rfl, _, u, rfl, rfl, hall⟩ := h
    rw [List.length_append, List.length_append, List.length_singleton] at hdepth
    obtain ⟨us, rfl, hreads⟩ := ElementValue.readsAll values hall
      (fun piece hpiece => hregular piece (by simp [ElementValue.pieces, hpiece]))
      (by omega : u.length ≤ depth)
    have hcount : values.length < 65536 :=
      hregular (.count values.length) (by simp [ElementValue.pieces])
    exact (Reads.u8 s.short 91).bind (Reads.counted hcount hreads).bind_pure

/-- Values are read one by one from the bytes of their pieces. -/
theorem ElementValue.readsAll : ∀ (l : List ElementValue) {t : Bytes} {depth : Nat},
    Piece.StandAll s.pool (ElementValue.piecesAll l) t →
      (∀ piece ∈ ElementValue.piecesAll l, piece.Regular) → t.length ≤ depth →
      ∃ ts : List Bytes, ts.flatten = t ∧ List.Forall₂
        (fun v u => Reads (ElementValue.read s depth) u v) l ts
  | [], t, depth, h, _, _ => by
    cases h
    exact ⟨[], rfl, .nil⟩
  | value :: rest, t, depth, h, hregular, hdepth => by
    obtain ⟨u, v, rfl, hvalue, hrest⟩ := Piece.standAll_append.1 h
    rw [List.length_append] at hdepth
    obtain ⟨us, rfl, hreads⟩ := ElementValue.readsAll rest hrest
      (fun piece hpiece => hregular piece (by simp [ElementValue.piecesAll, hpiece]))
      (by omega : v.length ≤ depth)
    have hread := ElementValue.reads value hvalue
      (fun piece hpiece => hregular piece (by simp [ElementValue.piecesAll, hpiece]))
      (by omega : u.length ≤ depth)
    exact ⟨u :: us, rfl, .cons hread hreads⟩

end

end Reads

/-! ## What is read -/

/-- The pieces of elements come one element after the other. -/
theorem Element.piecesAll_eq_flatMap (l : List Element) :
    Element.piecesAll l = l.flatMap Element.pieces := by
  induction l with
  | nil => rfl
  | cons element rest ih => rw [Element.piecesAll, List.flatMap_cons, ih]

/-- The pieces of values come one value after the other. -/
theorem ElementValue.piecesAll_eq_flatMap (l : List ElementValue) :
    ElementValue.piecesAll l = l.flatMap ElementValue.pieces := by
  induction l with
  | nil => rfl
  | cons value rest ih => rw [ElementValue.piecesAll, List.flatMap_cons, ih]

/-- Every reader accepts the pieces of the annotation. -/
def Annotation.Regular (a : Annotation) : Prop :=
  ∀ piece ∈ a.pieces, piece.Regular

/-- An annotation stays regular when its descriptors change. -/
theorem Annotation.regular_map {f : String → String} {a : Annotation} :
    (a.map f).Regular ↔ a.Regular := by
  simp [Regular, pieces_map, Piece.regular_map]

/-- Every reader accepts the pieces, and they take up that many bytes. -/
def Piece.Taken (l : List Piece) (n : Nat) : Prop :=
  (∀ piece ∈ l, piece.Regular) ∧ (l.map Piece.size).sum = n

/-- No piece takes no bytes. -/
theorem Piece.taken_nil : Taken [] 0 :=
  ⟨by simp, rfl⟩

theorem Piece.Taken.cons {l : List Piece} {n k : Nat} (h : Taken l n) (piece : Piece)
    (hpiece : piece.Regular) (hk : k = piece.size + n) : Taken (piece :: l) k := by
  refine ⟨List.forall_mem_cons.2 ⟨hpiece, h.1⟩, ?_⟩
  rw [List.map_cons, List.sum_cons, h.2, hk]

/-- Lists of pieces take what each of them takes. -/
theorem Piece.taken_flatMap {α : Type} {pieces : α → List Piece} {as : List α} {ns : List Nat}
    (h : List.Forall₂ (fun a n => Taken (pieces a) n) as ns) :
    Taken (as.flatMap pieces) ns.sum := by
  induction h with
  | nil => exact taken_nil
  | cons hfirst _ ih =>
    rw [List.flatMap_cons, List.sum_cons]
    refine ⟨List.forall_mem_append.2 ⟨hfirst.1, ih.1⟩, ?_⟩
    rw [List.map_append, List.sum_append, hfirst.2, ih.2]

section Yields

variable (s : Scope)

/-- What is read as an element has regular pieces of the size that was read. -/
theorem Element.yields_read {read : Reader Malformed ElementValue}
    (h : Yields read fun v n => Piece.Taken v.pieces n) :
    Yields (Element.read s read) fun e n => Piece.Taken e.pieces n := by
  refine Scope.yields_utf8.bind fun name _ hname => h.bind fun value _ hvalue => Yields.pure ?_
  exact hvalue.cons (.name name) trivial (by simp [hname, Piece.size])

theorem Annotation.yields_read {value : Reader Malformed ElementValue}
    (h : Yields value fun v n => Piece.Taken v.pieces n) :
    Yields (read s value) fun a n => Piece.Taken a.pieces n := by
  refine Scope.yields_utf8.bind fun type _ htype => ?_
  refine (Element.yields_read s h).counted.bind fun elements _ helements => Yields.pure ?_
  obtain ⟨hlength, ns, hns, hsum⟩ := helements
  have hpieces := (Piece.taken_flatMap hns).cons (.count elements.length) hlength rfl
  rw [pieces, Element.piecesAll_eq_flatMap]
  exact hpieces.cons (.descriptor type) trivial (by simp [htype, hsum, Piece.size])

/-- Every value that is read consists of pieces that every reader accepts, and takes their bytes. -/
theorem ElementValue.yields_read (depth : Nat) :
    Yields (ElementValue.read s depth) fun v n => Piece.Taken v.pieces n := by
  induction depth with
  | zero => exact Yields.throw
  | succ depth ih =>
    refine (Yields.u8 s.short).bind fun tag _ htag => ?_
    split
    · next hconst =>
      refine (Yields.u16 s.short).bind fun index _ hindex => Yields.pure ?_
      exact Piece.taken_nil.cons (.const tag index) hconst (by simp [htag, hindex, Piece.size])
    split
    · refine Scope.yields_utf8.bind fun descriptor _ hdescriptor => ?_
      refine Scope.yields_utf8.bind fun name _ hname => Yields.pure ?_
      refine ((Piece.taken_nil.cons (.name name) trivial rfl).cons (.descriptor descriptor) trivial
        rfl).cons (.tag _) trivial ?_
      simp [htag, hdescriptor, hname, Piece.size]
    split
    · refine Scope.yields_utf8.bind fun descriptor _ hdescriptor => Yields.pure ?_
      refine (Piece.taken_nil.cons (.descriptor descriptor) trivial rfl).cons (.tag _) trivial ?_
      simp [htag, hdescriptor, Piece.size]
    split
    · have hread := Annotation.yields_read s ih
      refine hread.bind fun a _ ha => Yields.pure ?_
      exact ha.cons (.tag _) trivial (by simp [htag, Piece.size])
    split
    · refine ih.counted.bind fun values _ hvalues => Yields.pure ?_
      obtain ⟨hlength, ns, hns, hsum⟩ := hvalues
      have hpieces := (Piece.taken_flatMap hns).cons (.count values.length) hlength rfl
      rw [ElementValue.pieces, ElementValue.piecesAll_eq_flatMap]
      exact hpieces.cons (.tag _) trivial (by simp [htag, hsum, Piece.size])
    · exact Yields.throw

end Yields

/-! ## Bodies of attributes -/

namespace Annotation

/-- The texts of an annotation. -/
def texts (a : Annotation) : List String :=
  a.pieces.filterMap Piece.text?

/-- The constants of the pool that an annotation points at by slot, with what they are taken for. -/
def consts (a : Annotation) : List (UInt8 × Index) :=
  a.pieces.filterMap Piece.const?

/-- The number of bytes of an annotation. -/
def size (a : Annotation) : Nat :=
  (a.pieces.map Piece.size).sum

/-- The number of bytes of a body that holds annotations. -/
def bodySize (as : List Annotation) : Nat :=
  2 + (as.map size).sum

/-- An annotation keeps its size when its descriptors change. -/
theorem size_map (f : String → String) (a : Annotation) : (a.map f).size = a.size := by
  rw [size, pieces_map, List.map_map, size]
  congr 1
  exact List.map_congr_left fun piece _ => Piece.size_map f piece

/-- Changing descriptors leaves the slots alone. -/
theorem consts_map (f : String → String) (a : Annotation) : (a.map f).consts = a.consts := by
  rw [consts, pieces_map, List.filterMap_map, consts]
  congr 1
  exact funext fun piece => Piece.const?_map f piece

/-- Annotations that are read can be read again, and take up the whole body. -/
theorem of_readAll_eq_ok {s : Scope} {info : Bytes} {as : List Annotation}
    (h : readAll s info = .ok as) : (∀ a ∈ as, a.Regular) ∧ bodySize as = info.length := by
  obtain ⟨-, ns, hns, hsum⟩ := Scope.of_whole_eq_ok
    (yields_read s (ElementValue.yields_read s info.length)).counted h
  have hall := (List.forall₂_and_left as ns).1 (hns.imp fun _ _ ha => ⟨ha.1, ha.2⟩)
  have hsizes : as.map size = ns := (map_eq_map_of_forall₂ (g := id) hall.2).trans (List.map_id _)
  exact ⟨hall.1, by rw [bodySize, hsizes, hsum]⟩

/-- The annotations of a body are read back exactly if sixteen bits hold their number. -/
theorem writes_writeAll (as : List Annotation) (hregular : ∀ a ∈ as, a.Regular) :
    Writes (writeAll as) (as.flatMap texts) fun p info => info.length = bodySize as ∧
      ∀ name bs, readAll ⟨p, name⟩ info = .ok bs ↔ as.length < 65536 ∧ bs = as := by
  have hall : Writes (as.mapM write) (as.flatMap texts) fun p ts =>
      List.Forall₂ (fun a t => Piece.StandAll p a.pieces t) as ts := by
    refine Writes.mapM fun a _ => ?_
    rw [write_eq]
    exact Piece.writes_writeAll a.pieces
  refine hall.map fun p ts hts => ?_
  have hlengths : as.map size = ts.map List.length :=
    map_eq_map_of_forall₂ (hts.imp fun _ _ h => h.length.symm)
  refine ⟨?_, fun name bs => ?_⟩
  · rw [List.length_append, List.length_flatten, ← hlengths]
    rfl
  · refine Scope.whole_counted_eq_ok_iff ?_ ?_
    · refine List.forall₂_iff_zip.2 ⟨hts.length_eq, fun {a t} hzip => ?_⟩
      obtain ⟨ha, ht⟩ := List.of_mem_zip hzip
      refine reads a (List.forall₂_zip hts hzip) (hregular a ha) ?_
      have hle := (List.sublist_flatten_of_mem ht).length_le
      rw [List.length_append]
      omega
    · intro t ht hempty
      obtain ⟨a, -, hstand⟩ := exists_of_forall₂_right hts ht
      have hsize := hstand.length
      rw [hempty] at hsize
      cases a
      rw [pieces, List.map_cons, List.sum_cons] at hsize
      exact absurd hsize (by simp [Piece.size]; omega)

end Annotation

end Crosswalk
