import Crosswalk.Proofs.ClassTree.RoundTrip
import Crosswalk.Proofs.Pool.Reseeding

/-!
# What a class tree needs of a pool

Everything in a class tree comes with a list of what its writer asks the pool for. The same list
says what the reader has looked up: whatever is read from a pool finds there all it needs to be
written again (`ClassTree.ReadFrom.meetsAll`).
-/

namespace Crosswalk

open Reader (Yields)
open PoolBuilder (Need Asks asks_text asks_className)

namespace ConstantPool

variable {p : ConstantPool}

/-- The pool has everything that is needed. -/
def MeetsAll (p : ConstantPool) (needs : List Need) : Prop :=
  ∀ n ∈ needs, p.Meets n

theorem MeetsAll.nil : p.MeetsAll [] :=
  List.forall_mem_nil _

theorem MeetsAll.cons {n : Need} {needs : List Need} (hn : p.Meets n) (h : p.MeetsAll needs) :
    p.MeetsAll (n :: needs) :=
  List.forall_mem_cons.2 ⟨hn, h⟩

theorem MeetsAll.append {needs more : List Need} (h : p.MeetsAll needs) (h' : p.MeetsAll more) :
    p.MeetsAll (needs ++ more) :=
  List.forall_mem_append.2 ⟨h, h'⟩

/-- Needs of several items are met if those of each item are. -/
theorem MeetsAll.flatMap {α : Type} {l : List α} {needs : α → List Need}
    (h : ∀ a ∈ l, p.MeetsAll (needs a)) : p.MeetsAll (l.flatMap needs) := by
  intro n hn
  obtain ⟨a, ha, hn⟩ := List.mem_flatMap.1 hn
  exact h a ha n hn

/-- Lists that are written as one need what they have needed one by one. -/
theorem MeetsAll.merge {α β : Type} {l : List α} {select : α → List β} {needs : β → List Need}
    {n : Need} (h : ∀ a ∈ l, select a ≠ [] → p.MeetsAll ((select a).flatMap needs ++ [n]))
    (hne : l.flatMap select ≠ []) : p.MeetsAll ((l.flatMap select).flatMap needs ++ [n]) := by
  obtain ⟨b, hb⟩ := List.exists_mem_of_ne_nil _ hne
  obtain ⟨a, ha, hb⟩ := List.mem_flatMap.1 hb
  refine .append ?_ (.cons (h a ha (List.ne_nil_of_mem hb) n (by simp)) .nil)
  rw [List.flatMap_assoc]
  refine .flatMap fun a ha m hm => ?_
  refine h a ha ?_ m (List.mem_append_left _ hm)
  intro hempty
  rw [hempty] at hm
  cases hm

end ConstantPool

open ConstantPool (MeetsAll meets_text meets_className)

/-- A text that is read is in the pool. -/
theorem Scope.yields_utf8_meets {s : Scope} :
    Yields s.utf8 fun text _ => s.pool.Meets (.text text) :=
  (Yields.u16 s.short).bind fun _ _ _ => Yields.lift fun _ h => meets_text h

/-- A class that is read is in the pool. -/
theorem Scope.yields_className_meets {s : Scope} :
    Yields s.className fun name _ => s.pool.Meets (.className name) :=
  (Yields.u16 s.short).bind fun _ _ _ => Yields.lift fun _ h => meets_className h

/-- A slot for a text asks for the text. -/
theorem asks_textSlot (s : String) : Asks (textSlot s) [.text s] :=
  (asks_text s).map

/-! ## Annotations -/

/-- The text of a piece is needed. -/
def Piece.needs : Piece → List Need
  | name text | descriptor text => [.text text]
  | tag _ | count _ | const _ _ => []

/-- Pieces ask for what each of them needs. -/
theorem Piece.asks_writeAll (l : List Piece) : Asks (writeAll l) (l.flatMap needs) := by
  induction l with
  | nil => exact .pure []
  | cons piece l ih =>
    have hpiece : Asks piece.write piece.needs := by
      cases piece with
      | name text | descriptor text => exact asks_textSlot text
      | _ => exact .pure _
    rw [List.flatMap_cons]
    exact hpiece.bind fun _ => ih.map

namespace Annotation

/-- What an annotation needs. -/
def needs (a : Annotation) : List Need :=
  a.pieces.flatMap Piece.needs

theorem asks_writeAll (as : List Annotation) : Asks (writeAll as) (as.flatMap needs) := by
  refine (Asks.mapM fun a _ => ?_).map
  rw [write_eq]
  exact Piece.asks_writeAll a.pieces

end Annotation

section Yields

variable (s : Scope)

/-- A pool in which the value of an element is read provides what the element needs. -/
theorem Element.yields_meets {read : Reader Malformed ElementValue}
    (h : Yields read fun v _ => s.pool.MeetsAll (v.pieces.flatMap Piece.needs)) :
    Yields (Element.read s read) fun e _ => s.pool.MeetsAll (e.pieces.flatMap Piece.needs) :=
  Scope.yields_utf8_meets.bind fun _ _ hname => h.bind fun _ _ hvalue =>
    Yields.pure (hvalue.cons hname)

theorem Annotation.yields_meets {value : Reader Malformed ElementValue}
    (h : Yields value fun v _ => s.pool.MeetsAll (v.pieces.flatMap Piece.needs)) :
    Yields (read s value) fun a _ => s.pool.MeetsAll a.needs := by
  refine Scope.yields_utf8_meets.bind fun type _ htype => ?_
  refine (Element.yields_meets s h).counted_forall.bind fun elements _ helements => Yields.pure ?_
  rw [needs, pieces, Element.piecesAll_eq_flatMap]
  have hall : s.pool.MeetsAll ((elements.flatMap Element.pieces).flatMap Piece.needs) := by
    rw [List.flatMap_assoc]
    exact .flatMap helements.2
  exact hall.cons htype

/-- The texts of a value that is read are in the pool. -/
theorem ElementValue.yields_meets (depth : Nat) : Yields (ElementValue.read s depth) fun v _ =>
    s.pool.MeetsAll (v.pieces.flatMap Piece.needs) := by
  induction depth with
  | zero => exact Yields.throw
  | succ depth ih =>
    refine (Yields.u8 s.short).bind fun tag _ _ => ?_
    split
    · exact (Yields.u16 s.short).bind fun _ _ _ => Yields.pure .nil
    split
    · exact Scope.yields_utf8_meets.bind fun _ _ hdescriptor => Scope.yields_utf8_meets.bind
        fun _ _ hname => Yields.pure ((MeetsAll.nil.cons hname).cons hdescriptor)
    split
    · exact Scope.yields_utf8_meets.bind fun _ _ hdescriptor => Yields.pure
        (MeetsAll.nil.cons hdescriptor)
    split
    · have hread := Annotation.yields_meets s ih
      exact hread.bind fun _ _ ha => Yields.pure ha
    split
    · refine ih.counted_forall.bind fun values _ hvalues => Yields.pure ?_
      rw [pieces, piecesAll_eq_flatMap, List.flatMap_cons, List.flatMap_cons, List.flatMap_assoc]
      exact MeetsAll.flatMap hvalues.2
    · exact Yields.throw

end Yields

/-- A pool in which annotations are read provides what they need. -/
theorem Annotation.meets_of_readAll {s : Scope} {info : Bytes} {as : List Annotation}
    (h : readAll s info = .ok as) : s.pool.MeetsAll (as.flatMap needs) :=
  .flatMap (Scope.of_whole_eq_ok
    (yields_meets s (ElementValue.yields_meets s info.length)).counted_forall h).2

/-! ## Frames and local variables -/

namespace VerificationType

/-- The class of an object type is needed. -/
def needs : VerificationType String → List Need
  | object type => [.className type]
  | _ => []

/-- A verification type asks for its class, if it has one. -/
theorem asks_mapM (t : VerificationType String) :
    Asks (t.mapM PoolBuilder.className) t.needs := by
  cases t with
  | object type => exact (asks_className type).map
  | _ => exact .pure _

/-- A pool in which it is read provides the class. -/
theorem yields_meets (s : Scope) : Yields (read s) fun t _ => s.pool.MeetsAll t.needs := by
  refine (Yields.u8 s.short).bind fun tag _ _ => ?_
  split
  case h_8 => exact Scope.yields_className_meets.bind fun _ _ h => Yields.pure (MeetsAll.nil.cons h)
  case h_9 => exact (Yields.u16 s.short).bind fun _ _ _ => Yields.pure .nil
  case h_10 => exact Yields.throw
  all_goals exact Yields.pure .nil

end VerificationType

namespace Frame

/-- What a frame needs. -/
def needs : Frame String → List Need
  | same _ | chop _ _ => []
  | oneItem _ item => item.needs
  | append _ locals => locals.flatMap VerificationType.needs
  | full _ locals stack =>
    locals.flatMap VerificationType.needs ++ stack.flatMap VerificationType.needs

/-- A frame asks for the classes of its types. -/
theorem asks_mapM (frame : Frame String) :
    Asks (frame.mapM PoolBuilder.className) frame.needs := by
  have htypes : ∀ ts : List (VerificationType String),
      Asks (ts.mapM fun t => t.mapM PoolBuilder.className)
        (ts.flatMap VerificationType.needs) :=
    fun ts => .mapM fun t _ => t.asks_mapM
  cases frame with
  | same delta => exact .pure _
  | oneItem delta item => exact item.asks_mapM.map
  | chop delta count => exact .pure _
  | append delta locals => exact (htypes locals).map
  | full delta locals stack => exact (htypes locals).bind fun _ => (htypes stack).map

/-- Frames ask for the classes of each of them. -/
theorem asks_writeAll (fs : List (Frame String)) : Asks (writeAll fs) (fs.flatMap needs) :=
  (Asks.mapM fun f _ => f.asks_mapM).map

/-- A frame that is announced by its tag needs nothing else than what its types need. -/
theorem Announces.yields_meets {s : Scope} {tag : UInt8} {read : Reader Malformed (Frame String)}
    (h : Announces s tag read) : Yields read fun f _ => s.pool.MeetsAll f.needs := by
  have htype := VerificationType.yields_meets s
  have hdelta := Yields.u16 s.short
  cases h with
  | same => exact Yields.pure .nil
  | oneItem => exact htype.bind fun _ _ hitem => Yields.pure hitem
  | reserved => exact Yields.throw
  | farOneItem => exact hdelta.bind fun _ _ _ => htype.bind fun _ _ hitem => Yields.pure hitem
  | chop | farSame => exact hdelta.bind fun _ _ _ => Yields.pure .nil
  | append =>
    refine hdelta.bind fun _ _ _ => (htype.times _).bind fun locals _ hlocals => ?_
    obtain ⟨-, ks, hks, -⟩ := hlocals
    refine Yields.pure (.flatMap fun t ht => ?_)
    obtain ⟨k, -, hmeets⟩ := exists_of_forall₂_left hks ht
    exact hmeets
  | full =>
    refine hdelta.bind fun _ _ _ => htype.counted_forall.bind fun _ _ hlocals => ?_
    exact htype.counted_forall.bind fun _ _ hstack =>
      Yields.pure ((MeetsAll.flatMap hlocals.2).append (.flatMap hstack.2))

/-- A pool in which frames are read provides their classes. -/
theorem yields_meets (s : Scope) : Yields (read s) fun f _ => s.pool.MeetsAll f.needs :=
  (Yields.u8 s.short).bind fun tag _ _ => (announces_readTagged s tag).yields_meets

end Frame

namespace LocalVariable

/-- What a local variable needs. -/
def needs (v : LocalVariable) : List Need :=
  [.text v.name, .text v.type]

/-- Local variables ask for their names and types. -/
theorem asks_writeAll (vs : List LocalVariable) : Asks (writeAll vs) (vs.flatMap needs) := by
  refine (Asks.mapM fun v _ => ?_).map
  exact (asks_textSlot v.name).bind fun _ => (asks_textSlot v.type).map

/-- A pool in which they are read provides those texts. -/
theorem yields_meets (s : Scope) : Yields (read s) fun v _ => s.pool.MeetsAll v.needs :=
  (Yields.u16 _).bind fun _ _ _ => (Yields.u16 _).bind fun _ _ _ =>
    Scope.yields_utf8_meets.bind fun _ _ hname => Scope.yields_utf8_meets.bind fun _ _ htype =>
      (Yields.u16 _).bind fun _ _ _ => Yields.pure ((MeetsAll.nil.cons htype).cons hname)

end LocalVariable

/-! ## Method bodies -/

/-- An attribute asks for its name behind what is in it. -/
theorem Attribute.asks_build {info : Build Bytes} {needs : List Need} (h : Asks info needs)
    (name : String) : Asks (Attribute.build name info) (needs ++ [.text name]) :=
  h.bind fun _ => (asks_text name).map

namespace Code

namespace Part

/-- What a part of a body needs, the name of the attribute last. -/
def needs : Part → List Need
  | frames fs => fs.flatMap Frame.needs ++ [.text framesName]
  | locals vs => vs.flatMap LocalVariable.needs ++ [.text localsName]
  | localTypes vs => vs.flatMap LocalVariable.needs ++ [.text localTypesName]
  | other a => [.text a.name]

/-- A part of a body asks for its name and what is in it. -/
theorem asks_toAttribute (part : Part) : Asks part.toAttribute part.needs := by
  cases part with
  | frames fs => exact Attribute.asks_build (Frame.asks_writeAll fs) framesName
  | locals vs => exact Attribute.asks_build (LocalVariable.asks_writeAll vs) localsName
  | localTypes vs => exact Attribute.asks_build (LocalVariable.asks_writeAll vs) localTypesName
  | other a => exact (asks_text a.name).map

/-- A pool in which it is picked apart provides this. -/
theorem meets_of_ofAttribute {p : ConstantPool} {a : OpaqueAttribute} {part : Part}
    (hname : p.Meets (.text a.name)) (h : ofAttribute p a = .ok part) : p.MeetsAll part.needs := by
  cases ofAttribute_eq_ok_iff.1 h with
  | frames hfs =>
    exact (MeetsAll.flatMap
      (Scope.of_whole_eq_ok (Frame.yields_meets _).counted_forall hfs).2).append
      (MeetsAll.nil.cons hname)
  | locals hvs | localTypes hvs =>
    exact (MeetsAll.flatMap
      (Scope.of_whole_eq_ok (LocalVariable.yields_meets _).counted_forall hvs).2).append
        (MeetsAll.nil.cons hname)
  | other => exact MeetsAll.nil.cons hname

/-- So does a pool in which it is read. -/
theorem yields_meets (s : Scope) : Yields (read s) fun part _ => s.pool.MeetsAll part.needs :=
  Yields.bind (Scope.yields_utf8_meets.bind fun _ _ hname => (Yields.u32 _).bind fun _ _ _ =>
    (Yields.block _ _).bind fun _ _ _ => Yields.pure hname) fun _ _ hname =>
      Yields.lift fun _ h => meets_of_ofAttribute hname h

end Part

/-- What a body needs. -/
def needs (code : Code) : List Need :=
  code.parts.flatMap Part.needs

/-- A body asks for what its parts need. -/
theorem asks_write (code : Code) : Asks code.write code.needs := by
  rw [write, toAttributes_eq]
  exact (Asks.mapM fun part _ => part.asks_toAttribute).map

/-- A body needs no more than the parts it has been read from. -/
theorem meets_ofParts {p : ConstantPool} (code : Code) {ps : List Part}
    (h : ∀ part ∈ ps, p.MeetsAll part.needs) : p.MeetsAll (code.ofParts ps).needs := by
  refine .flatMap fun part hpart => ?_
  rcases mem_parts.1 hpart with ⟨fs, hfs, rfl⟩ | ⟨hne, rfl⟩ | ⟨hne, rfl⟩ | ⟨a, ha, rfl⟩
  · obtain ⟨q, hq, hframes⟩ := List.mem_filterMap.1 (List.mem_of_getLast? hfs)
    cases q <;> cases hframes
    exact h _ hq
  · refine .merge (fun q hq hlist => ?_) hne
    cases q with
    | locals vs => exact h _ hq
    | _ => exact absurd rfl hlist
  · refine .merge (fun q hq hlist => ?_) hne
    cases q with
    | localTypes vs => exact h _ hq
    | _ => exact absurd rfl hlist
  · obtain ⟨q, hq, hother⟩ := List.mem_filterMap.1 ha
    cases q <;> cases hother
    exact h _ hq

/-- A pool in which it is read provides this. -/
theorem yields_meets (s : Scope) : Yields (read s) fun code _ => s.pool.MeetsAll code.needs := by
  refine (Yields.u16 _).bind fun maxStack _ _ => (Yields.u16 _).bind fun maxLocals _ _ => ?_
  refine (Yields.u32 _).bind fun length _ _ => (Yields.block _ _).bind fun bytecode _ _ => ?_
  refine (Handler.yields_read s).counted.bind fun handlers _ _ => ?_
  refine (Part.yields_meets s).counted_forall.bind fun ps _ hps => Yields.pure ?_
  exact meets_ofParts { maxStack, maxLocals, bytecode, handlers, frames := none, locals := [],
                        localTypes := [], attributes := [] } hps.2

/-- A body that is read finds all it needs. -/
theorem meets_of_ofInfo {p : ConstantPool} {info : Bytes} {code : Code}
    (h : ofInfo p info = .ok code) : p.MeetsAll code.needs :=
  Scope.of_whole_eq_ok (yields_meets _) h

end Code

/-! ## Metadata -/

namespace Metadata

namespace Part

/-- What a part needs, the name of the attribute last. -/
def needs : Part → List Need
  | signature s => [.text s, .text signatureName]
  | visible as => as.flatMap Annotation.needs ++ [.text visibleName]
  | invisible as => as.flatMap Annotation.needs ++ [.text invisibleName]
  | other a => [.text a.name]

/-- A part of metadata asks for its name and what is in it. -/
theorem asks_toAttribute (part : Part) : Asks part.toAttribute part.needs := by
  cases part with
  | signature s => exact Attribute.asks_build (asks_textSlot s) signatureName
  | visible as =>
    have hbody := Annotation.asks_writeAll as
    exact Attribute.asks_build hbody visibleName
  | invisible as =>
    have hbody := Annotation.asks_writeAll as
    exact Attribute.asks_build hbody invisibleName
  | other a => exact (asks_text a.name).map

/-- A pool in which it is picked apart provides this. -/
theorem meets_of_ofAttribute {p : ConstantPool} {a : OpaqueAttribute} {part : Part}
    (hname : p.Meets (.text a.name)) (h : ofAttribute p a = .ok part) : p.MeetsAll part.needs := by
  cases ofAttribute_eq_ok_iff.1 h with
  | signature hs =>
    exact (MeetsAll.nil.cons hname).cons (Scope.of_whole_eq_ok Scope.yields_utf8_meets hs)
  | visible has | invisible has =>
    have hread := Annotation.meets_of_readAll has
    exact hread.append (MeetsAll.nil.cons hname)
  | other => exact MeetsAll.nil.cons hname

end Part

/-- What metadata need. -/
def needs (m : Metadata) : List Need :=
  m.parts.flatMap Part.needs

/-- Metadata ask for what their parts need. -/
theorem asks_toAttributes (m : Metadata) : Asks m.toAttributes m.needs := by
  rw [toAttributes_eq]
  exact .mapM fun part _ => part.asks_toAttribute

/-- Metadata need no more than the parts they have been read from. -/
theorem meets_ofParts {p : ConstantPool} {ps : List Part}
    (h : ∀ part ∈ ps, p.MeetsAll part.needs) : p.MeetsAll (ofParts ps).needs := by
  refine .flatMap fun part hpart => ?_
  rcases mem_parts.1 hpart with ⟨s, hs, rfl⟩ | ⟨hne, rfl⟩ | ⟨hne, rfl⟩ | ⟨a, ha, rfl⟩
  · obtain ⟨q, hq, hsignature⟩ := List.mem_filterMap.1 (List.mem_of_getLast? hs)
    cases q <;> cases hsignature
    exact h _ hq
  · refine .merge (fun q hq hlist => ?_) hne
    cases q with
    | visible as => exact h _ hq
    | _ => exact absurd rfl hlist
  · refine .merge (fun q hq hlist => ?_) hne
    cases q with
    | invisible as => exact h _ hq
    | _ => exact absurd rfl hlist
  · obtain ⟨q, hq, hother⟩ := List.mem_filterMap.1 ha
    cases q <;> cases hother
    exact h _ hq

/-- Metadata that are read find all they need. -/
theorem meets_of_ofAttributes {p : ConstantPool} {as : List Attribute} {m : Metadata}
    (h : ofAttributes p as = .ok m) : p.MeetsAll m.needs := by
  obtain ⟨ps, hps, rfl⟩ := map_eq_ok_iff.1 h
  refine meets_ofParts fun part hpart => ?_
  obtain ⟨a, -, hread⟩ := exists_of_forall₂_right (mapM_eq_ok_iff.1 hps) hpart
  obtain ⟨o, ho, hread⟩ := bind_eq_ok_iff.1 hread
  obtain ⟨name, hname, rfl⟩ := map_eq_ok_iff.1 ho
  exact Part.meets_of_ofAttribute (a := ⟨name, a.info⟩) (meets_text hname) hread

end Metadata

/-! ## Members -/

namespace FieldTree

/-- What a field needs. -/
def needs (f : FieldTree) : List Need :=
  f.metadata.needs ++ [.text f.name, .text f.descriptor]

/-- A field asks for its metadata, its name and its descriptor. -/
theorem asks_toMember (f : FieldTree) : Asks f.toMember f.needs :=
  f.metadata.asks_toAttributes.bind fun _ => (asks_text f.name).bind fun _ =>
    (asks_text f.descriptor).map

/-- A field that is read finds all it needs. -/
theorem meets_of_ofMember {p : ConstantPool} {m : Member .fields} {f : FieldTree}
    (h : ofMember p m = .ok f) : p.MeetsAll f.needs := by
  obtain ⟨metadata, hmetadata, h⟩ := bind_eq_ok_iff.1 h
  obtain ⟨name, hname, h⟩ := bind_eq_ok_iff.1 h
  obtain ⟨descriptor, hdescriptor, rfl⟩ := map_eq_ok_iff.1 h
  exact (Metadata.meets_of_ofAttributes hmetadata).append
    ((MeetsAll.nil.cons (meets_text hdescriptor)).cons (meets_text hname))

end FieldTree

namespace MethodTree

/-- What a part of a method needs. -/
def partNeeds : Part → List Need
  | .inl part => part.needs
  | .inr code => code.needs ++ [.text Code.attributeName]

/-- What a method needs. -/
def needs (m : MethodTree) : List Need :=
  m.parts.flatMap partNeeds ++ [.text m.name, .text m.descriptor]

/-- A method asks for its body besides. -/
theorem asks_toMember (m : MethodTree) : Asks m.toMember m.needs := by
  rw [toMember_eq]
  have hpart : ∀ part : Part, Asks (partToAttribute part) (partNeeds part) := by
    intro part
    cases part with
    | inl part => exact part.asks_toAttribute
    | inr code => exact Attribute.asks_build code.asks_write Code.attributeName
  exact (Asks.mapM fun part _ => hpart part).bind fun _ => (asks_text m.name).bind fun _ =>
    (asks_text m.descriptor).map

/-- A pool in which a part of a method is read provides what the part needs. -/
theorem meets_of_readPart {p : ConstantPool} {a : Attribute} {part : Part}
    (h : readPart p a = .ok part) : p.MeetsAll (partNeeds part) := by
  obtain ⟨o, ho, hpart⟩ := bind_eq_ok_iff.1 h
  obtain ⟨name, hname, rfl⟩ := map_eq_ok_iff.1 ho
  have hmeets := meets_text hname
  rw [readPart_eq hname] at h
  split at h
  · next hcode =>
    obtain ⟨code, hread, rfl⟩ := map_eq_ok_iff.1 h
    exact (Code.meets_of_ofInfo hread).append (MeetsAll.nil.cons (hcode ▸ hmeets))
  · obtain ⟨part, hread, rfl⟩ := map_eq_ok_iff.1 h
    exact Metadata.Part.meets_of_ofAttribute (a := ⟨name, a.info⟩) hmeets hread

/-- A method that is read finds all it needs. -/
theorem meets_of_ofMember {p : ConstantPool} {member : Member .methods} {m : MethodTree}
    (h : ofMember p member = .ok m) : p.MeetsAll m.needs := by
  obtain ⟨⟨metadata, code⟩, hattributes, h⟩ := bind_eq_ok_iff.1 h
  obtain ⟨name, hname, h⟩ := bind_eq_ok_iff.1 h
  obtain ⟨descriptor, hdescriptor, rfl⟩ := map_eq_ok_iff.1 h
  obtain ⟨ps, hps, hparts⟩ := map_eq_ok_iff.1 hattributes
  cases hparts
  have hall : ∀ part ∈ ps, p.MeetsAll (partNeeds part) := by
    intro part hpart
    obtain ⟨a, -, hread⟩ := exists_of_forall₂_right (mapM_eq_ok_iff.1 hps) hpart
    exact meets_of_readPart hread
  have hmetadata : p.MeetsAll (Metadata.ofParts (ps.filterMap Sum.getLeft?)).needs := by
    refine Metadata.meets_ofParts fun part hpart => ?_
    obtain ⟨q, hq, hleft⟩ := List.mem_filterMap.1 hpart
    cases q <;> cases hleft
    exact hall _ hq
  refine .append (.flatMap fun part hpart => ?_)
    ((MeetsAll.nil.cons (meets_text hdescriptor)).cons (meets_text hname))
  rw [parts, List.mem_append, Option.toList_map, List.mem_map, List.mem_map] at hpart
  rcases hpart with ⟨code, hcode, rfl⟩ | ⟨part, hpart, rfl⟩
  · obtain ⟨q, hq, hright⟩ :=
      List.mem_filterMap.1 (List.mem_of_getLast? (Option.mem_toList.1 hcode))
    cases q <;> cases hright
    exact hall _ hq
  · exact fun n hn => hmetadata n (List.mem_flatMap.2 ⟨part, hpart, hn⟩)

end MethodTree

/-! ## Classes -/

namespace ClassTree

/-- What everything but the entries of the pool needs. -/
def needs (c : ClassTree) : List Need :=
  [.className c.name] ++ (c.superName.toList.map .className ++ (c.interfaces.map .className ++
    (c.fields.flatMap FieldTree.needs ++ (c.methods.flatMap MethodTree.needs ++
      c.metadata.needs))))

/-- A super class is asked for if there is one. -/
theorem asks_superSlot (superName : Option String) :
    Asks (superSlot superName) (superName.toList.map .className) := by
  cases superName with
  | none => exact .pure _
  | some name => exact asks_className name

/-- Interfaces are asked for in order. -/
theorem asks_interfaces (names : List String) :
    Asks (names.mapM PoolBuilder.className) (names.map .className) := by
  have h := Asks.mapM (l := names) fun name _ => asks_className name
  rwa [← List.map_eq_flatMap] at h

/-- A class asks for its names, its members and its metadata. -/
theorem asks_buildBody (c : ClassTree) : Asks c.buildBody c.needs :=
  (asks_className c.name).bind fun _ => (asks_superSlot c.superName).bind fun _ =>
    (asks_interfaces c.interfaces).bind fun _ =>
      (Asks.mapM fun f _ => f.asks_toMember).bind fun _ =>
        (Asks.mapM fun m _ => m.asks_toMember).bind fun _ => c.metadata.asks_toAttributes.map

/-- A class that is read finds all it needs. -/
theorem ReadFrom.meetsAll {f : ClassFile} {c : ClassTree} (h : ReadFrom f c) :
    f.constants.MeetsAll c.needs := by
  have hsuper : f.constants.MeetsAll (c.superName.toList.map .className) := by
    have hread := h.superName
    unfold readSuper at hread
    split at hread
    · rw [← Except.ok.inj hread]
      exact .nil
    · obtain ⟨s, hs, hsome⟩ := map_eq_ok_iff.1 hread
      rw [← hsome]
      exact .cons (meets_className hs) .nil
  have hinterfaces : f.constants.MeetsAll (c.interfaces.map .className) := by
    intro n hn
    obtain ⟨s, hs, rfl⟩ := List.mem_map.1 hn
    obtain ⟨i, -, hi⟩ := exists_of_forall₂_right (mapM_eq_ok_iff.1 h.interfaces) hs
    exact meets_className hi
  have hfields : f.constants.MeetsAll (c.fields.flatMap FieldTree.needs) := by
    refine .flatMap fun field hfield => ?_
    obtain ⟨member, -, hread⟩ := exists_of_forall₂_right (mapM_eq_ok_iff.1 h.fields) hfield
    exact FieldTree.meets_of_ofMember hread
  have hmethods : f.constants.MeetsAll (c.methods.flatMap MethodTree.needs) := by
    refine .flatMap fun method hmethod => ?_
    obtain ⟨member, -, hread⟩ := exists_of_forall₂_right (mapM_eq_ok_iff.1 h.methods) hmethod
    exact MethodTree.meets_of_ofMember hread
  have hmetadata := Metadata.meets_of_ofAttributes h.metadata
  exact .append (.cons (meets_className h.name) .nil)
    (hsuper.append (hinterfaces.append (hfields.append (hmethods.append hmetadata))))

end ClassTree

end Crosswalk
