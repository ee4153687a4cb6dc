import Crosswalk.Proofs.ClassFile.Constants

/-!
# Class files read back

`ofBytes_bytes_iff` says exactly when the bytes of a class file are read as that class file: its
version is one that is known, its pool leaves no gap, and every length has room in the field that
announces it.
-/

namespace Crosswalk

open Reader (Reads Yields)
open FileReader

/-! ## What every class file that is read has in common -/

/-- The length of the body can be told by four bytes. -/
def Attribute.Regular (a : Attribute) : Prop :=
  a.info.length < 4294967296

/-- The attributes can be counted. -/
structure Member.Regular {h : Holder} (m : Member h) : Prop where
  attributes : m.attributes.length < 65536
  infos : ∀ a ∈ m.attributes, a.Regular

/-- The pool leaves no gap, and its slots have numbers. -/
structure ConstantPool.Regular (pool : ConstantPool) : Prop where
  laidOut : pool.LaidOut 1
  limit : pool.next < 65536
  constants : ∀ item ∈ pool.toList, item.2.Regular

/-- The version is known, and all lists can be counted. -/
structure ClassFile.Regular (f : ClassFile) : Prop where
  version : f.version.isSupported = true
  constants : f.constants.Regular
  interfaces : f.interfaces.length < 65536
  fieldCount : f.fields.length < 65536
  fields : ∀ m ∈ f.fields, m.Regular
  methodCount : f.methods.length < 65536
  methods : ∀ m ∈ f.methods, m.Regular
  attributeCount : f.attributes.length < 65536
  attributes : ∀ a ∈ f.attributes, a.Regular

/-- The bytes of every text of the pool can be counted. -/
def ClassFile.Spelled (f : ClassFile) : Prop :=
  ∀ item ∈ f.constants.toList, item.2.Spelled

/-! ## Reading what is written -/

/-- An attribute whose length fits its field is read back. -/
theorem Attribute.reads_bytes {a : Attribute} (h : a.Regular) : Reads Attribute.read a.bytes a := by
  have hcount : (UInt32.ofNat a.info.length).toNat = a.info.length := UInt32.toNat_ofNat_of_lt' h
  rw [Attribute.bytes, List.append_assoc]
  refine (reads_u16 a.name).bind ((reads_u32 (UInt32.ofNat a.info.length)).bind ?_)
  exact (reads_block a.info hcount).bind_pure

/-- Known flags are read back from their bits. -/
theorem Access.reads_bits {h : Holder} (a : Access h) :
    Reads (Access.read h) (Bytes.ofUInt16 a.bits) a := by
  have hread := (reads_u16 a.bits).bind_pure (f := Access.known h)
  rwa [Access.known_bits] at hread

theorem reads_attributes {as : List Attribute} (hcount : as.length < 65536)
    (h : ∀ a ∈ as, a.Regular) :
    Reads (counted Attribute.read) (Bytes.counted Attribute.bytes as) as :=
  Reads.counted_flatMap hcount fun a ha => Attribute.reads_bytes (h a ha)

/-- A member is read back if its parts are. -/
theorem Member.reads_bytes {h : Holder} {m : Member h} (hm : m.Regular) :
    Reads (Member.read h) m.bytes m := by
  rw [Member.bytes, List.append_assoc, List.append_assoc]
  refine (Access.reads_bits m.access).bind ((reads_u16 m.name).bind ?_)
  exact (reads_u16 m.descriptor).bind (reads_attributes hm.attributes hm.infos).bind_pure

theorem reads_members {h : Holder} {ms : List (Member h)} (hcount : ms.length < 65536)
    (hms : ∀ m ∈ ms, m.Regular) :
    Reads (counted (Member.read h)) (Bytes.counted Member.bytes ms) ms :=
  Reads.counted_flatMap hcount fun m hm => Member.reads_bytes (hms m hm)

/-- A version is read back. -/
theorem Version.reads_bytes (v : Version) : Reads Version.read v.bytes v :=
  (reads_u16 v.minor).bind (reads_u16 v.major).bind_pure

namespace ClassFile

theorem reads_magic : Reads readMagic magic () :=
  (reads_block magic rfl).bind_nil (Reads.pure ())

/-- A version that is supported is accepted. -/
theorem reads_version {v : Version} (h : v.isSupported = true) : Reads readVersion v.bytes v := by
  refine v.reads_bytes.bind_nil ?_
  rw [h]
  exact Reads.pure v

/-- The bytes of a class file are read as that class file, if every length has room. -/
theorem reads_bytes {f : ClassFile} (hregular : f.Regular) (hspelled : f.Spelled) :
    Reads ClassFile.read f.bytes f := by
  refine reads_magic.bind ((reads_version hregular.version).bind ?_)
  refine (ConstantPool.reads_poolBytes hregular.constants.laidOut hregular.constants.limit
    hregular.constants.constants hspelled).bind ?_
  refine (Access.reads_bits f.access).bind ((reads_u16 f.thisClass).bind ?_)
  refine (reads_u16 f.superClass).bind ?_
  refine (Reads.counted_flatMap hregular.interfaces fun i _ => reads_u16 i).bind ?_
  refine (reads_members hregular.fieldCount hregular.fields).bind ?_
  refine (reads_members hregular.methodCount hregular.methods).bind ?_
  exact (reads_attributes hregular.attributeCount hregular.attributes).bind_pure

end ClassFile

/-! ## What is read -/

/-- The number of bytes in the bodies of attributes. -/
def infoSize (as : List Attribute) : Nat :=
  (as.map fun a => a.info.length).sum

/-- The number of bytes in the bodies of all attributes of a class file. -/
def ClassFile.infoSize (f : ClassFile) : Nat :=
  (f.fields.map fun m => Crosswalk.infoSize m.attributes).sum +
    (f.methods.map fun m => Crosswalk.infoSize m.attributes).sum + Crosswalk.infoSize f.attributes

/-- Flags may have any bits. -/
theorem Access.yields_read (h : Holder) : Yields (Access.read h) fun _ _ => True :=
  (Yields.u16 _).bind fun _ _ _ => Yields.pure trivial

/-- Attributes that are read can be counted, and there are no more bytes in them than were read. -/
theorem yields_attributes : Yields (counted Attribute.read) fun as n =>
    as.length < 65536 ∧ (∀ a ∈ as, a.Regular) ∧ infoSize as ≤ n := by
  have hone : Yields Attribute.read fun a n => a.Regular ∧ a.info.length ≤ n := by
    refine (Yields.u16 _).bind fun name _ _ => (Yields.u32 _).bind fun length _ _ => ?_
    refine (Yields.block _ _).bind fun info _ hinfo => Yields.pure ⟨?_, ?_⟩
    · rw [Attribute.Regular, hinfo.1]
      exact length.toNat_lt
    · show info.length ≤ _
      omega
  exact hone.counted_le

/-- So it is with the attributes of a member that is read. -/
theorem Member.yields_read (h : Holder) :
    Yields (Member.read h) fun m n => m.Regular ∧ infoSize m.attributes ≤ n := by
  refine (Access.yields_read h).bind fun access _ _ => (Yields.u16 _).bind fun name _ _ => ?_
  refine (Yields.u16 _).bind fun descriptor _ _ => yields_attributes.bind fun as _ has => ?_
  obtain ⟨hcount, hregular, hsize⟩ := has
  exact Yields.pure ⟨⟨hcount, hregular⟩, by show infoSize as ≤ _; omega⟩

namespace ClassFile

theorem yields_readMagic : Yields readMagic fun _ _ => True := by
  refine (Yields.block _ _).bind fun found _ _ => ?_
  split
  · exact Yields.throw
  · exact Yields.pure trivial

/-- Only versions that are supported are accepted. -/
theorem yields_readVersion : Yields readVersion fun v _ => v.isSupported = true := by
  have hread : Yields Version.read fun _ _ => True :=
    (Yields.u16 _).bind fun _ _ _ => (Yields.u16 _).bind fun _ _ _ => Yields.pure trivial
  refine hread.bind fun v _ _ => ?_
  split
  · next hsupported => exact Yields.pure hsupported
  · exact Yields.throw

/-- A class file that is read is regular, and there are no more bytes in its attributes than were
read. -/
theorem yields_read : Yields ClassFile.read fun f n => f.Regular ∧ f.infoSize ≤ n := by
  refine yields_readMagic.bind fun _ _ _ => yields_readVersion.bind fun version _ hversion => ?_
  refine ConstantPool.yields_read.bind fun constants _ hconstants => ?_
  refine (Access.yields_read .classes).bind fun access _ _ => (Yields.u16 _).bind fun this _ _ => ?_
  refine (Yields.u16 _).bind fun super _ _ => ?_
  have hslot : Yields u16 fun _ _ => True := (Yields.u16 _).mono fun _ _ _ => trivial
  refine hslot.counted_forall.bind fun interfaces _ hinterfaces => ?_
  refine (Member.yields_read .fields).counted_le.bind fun fields _ hfields => ?_
  refine (Member.yields_read .methods).counted_le.bind fun methods _ hmethods => ?_
  refine yields_attributes.bind fun attributes _ hattributes => Yields.pure ?_
  obtain ⟨hfieldCount, hfields, hfieldSize⟩ := hfields
  obtain ⟨hmethodCount, hmethods, hmethodSize⟩ := hmethods
  obtain ⟨hattributeCount, hattributes, hattributeSize⟩ := hattributes
  refine ⟨⟨hversion, ⟨hconstants.1, hconstants.2.1, hconstants.2.2⟩, hinterfaces.1, hfieldCount,
    hfields, hmethodCount, hmethods, hattributeCount, hattributes⟩, ?_⟩
  show (fields.map fun m => Crosswalk.infoSize m.attributes).sum +
    (methods.map fun m => Crosswalk.infoSize m.attributes).sum + Crosswalk.infoSize attributes ≤ _
  omega

/-- A reader of the whole class file leaves nothing. -/
theorem ofBytes_eq_ok_iff {input : Bytes} {f : ClassFile} :
    ofBytes input = .ok f ↔ ClassFile.read input = .ok (f, []) := by
  have hrun : ofBytes input = (ClassFile.read input).bind fun next =>
      if next.2.isEmpty then .ok next.1 else .error (.trailingBytes next.2.length) := rfl
  rw [hrun]
  cases ClassFile.read input with
  | error e => simp [Except.bind]
  | ok next =>
    obtain ⟨g, rest⟩ := next
    cases rest <;> simp [Except.bind]

/-- Whatever is read as a class file is regular. -/
theorem regular_of_ofBytes {input : Bytes} {f : ClassFile} (h : ofBytes input = .ok f) :
    f.Regular :=
  (yields_read input f [] (ofBytes_eq_ok_iff.1 h)).2.1

/-- The bodies of attributes are parts of the class file. -/
theorem infoSize_le {input : Bytes} {f : ClassFile} (h : ofBytes input = .ok f) :
    f.infoSize ≤ input.length :=
  (yields_read input f [] (ofBytes_eq_ok_iff.1 h)).2.2

/-- The bytes of a class file are read as that class file exactly if every length has room in the
field that announces it. -/
theorem ofBytes_bytes_iff {f : ClassFile} : ofBytes f.bytes = .ok f ↔ f.Regular ∧ f.Spelled := by
  constructor
  · intro h
    have hregular := regular_of_ofBytes h
    refine ⟨hregular, ?_⟩
    have hread := ofBytes_eq_ok_iff.1 h
    rw [ClassFile.bytes] at hread
    obtain ⟨_, input, hmagic, hread⟩ := Reader.of_bind_ok hread
    cases (reads_magic _).symm.trans hmagic
    obtain ⟨version, input, hversion, hread⟩ := Reader.of_bind_ok hread
    cases (reads_version hregular.version _).symm.trans hversion
    obtain ⟨constants, input, hpool, hread⟩ := Reader.of_bind_ok hread
    obtain ⟨access, input', -, hread⟩ := Reader.of_bind_ok hread
    obtain ⟨thisClass, input', -, hread⟩ := Reader.of_bind_ok hread
    obtain ⟨superClass, input', -, hread⟩ := Reader.of_bind_ok hread
    obtain ⟨interfaces, input', -, hread⟩ := Reader.of_bind_ok hread
    obtain ⟨fields, input', -, hread⟩ := Reader.of_bind_ok hread
    obtain ⟨methods, input', -, hread⟩ := Reader.of_bind_ok hread
    obtain ⟨attributes, input', -, hread⟩ := Reader.of_bind_ok hread
    -- Whatever follows the pool, the constants that are read are those of the file.
    have hconstants : constants = f.constants := by
      have := congrArg (fun next => next.1.constants) (Except.ok.inj hread)
      exact this
    subst hconstants
    rw [poolBytes, List.append_assoc] at hpool
    obtain ⟨count, input', hcount, hpool⟩ := Reader.of_bind_ok hpool
    cases (reads_u16 _ _).symm.trans hcount
    exact ConstantPool.spelled_of_readAfter (Slots.laidOut_startingAt 1) (by simp) rfl hpool
  · rintro ⟨hregular, hspelled⟩
    have h := reads_bytes hregular hspelled []
    rw [List.append_nil] at h
    exact ofBytes_eq_ok_iff.2 h

end ClassFile

end Crosswalk
