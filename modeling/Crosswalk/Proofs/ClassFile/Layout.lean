import Crosswalk.Proofs.ClassFile.PrefixFree

/-!
# Class files as they are laid out

A `ClassLayout` keeps every word of a class file as it stands there: the number of slots as it is
written, flags with all their bits, and the bodies of texts instead of the texts. Every class file
that is read has such a layout (`ClassLayout.exists_of_ofBytes`), and is what the layout stands for.
-/

namespace Crosswalk

open Reader (Consumes)
open FileReader

/-! ## Layouts -/

/-- A constant as it is laid out. -/
inductive ConstantLayout
  | text (body : Bytes)
  /-- A constant without a body. -/
  | other (c : Constant)

namespace ConstantLayout

/-- The bytes of a constant. -/
def bytes : ConstantLayout → Bytes
  | text body => 1 :: Constant.bodyBytes body
  | other c => c.bytes

/-- The constant that is read from the bytes. -/
def StandsFor : ConstantLayout → Constant → Prop
  | text body, c => body.length < 65536 ∧ Constant.ofBody body = .ok c
  | other c, c' => c = c' ∧ ∀ s, c.bytes ≠ 1 :: s

end ConstantLayout

/-- A field or a method as it is laid out. -/
structure MemberLayout where
  access : UInt16
  name : Index
  descriptor : Index
  attributes : List Attribute

namespace MemberLayout

/-- The flags, the name, the descriptor and the attributes. -/
def bytes (l : MemberLayout) : Bytes :=
  Bytes.ofUInt16 l.access ++ Bytes.ofUInt16 l.name ++ Bytes.ofUInt16 l.descriptor ++
    Bytes.counted Attribute.bytes l.attributes

/-- The member has the flags that its holder knows, and everything else as it is laid out. -/
structure StandsFor {h : Holder} (l : MemberLayout) (m : Member h) : Prop where
  access : m.access = .known h l.access
  name : m.name = l.name
  descriptor : m.descriptor = l.descriptor
  attributes : m.attributes = l.attributes

end MemberLayout

/-- A class file as it is laid out. -/
structure ClassLayout where
  version : Version
  /-- The number of the slot behind the last one, or 0 for a class without constants. -/
  count : UInt16
  constants : List ConstantLayout
  access : UInt16
  thisClass : Index
  superClass : Index
  interfaces : List Index
  fields : List MemberLayout
  methods : List MemberLayout
  attributes : List Attribute

namespace ClassLayout

/-- The pool behind the number that announces it. -/
def poolBytes (l : ClassLayout) : Bytes :=
  Bytes.ofUInt16 l.count ++ l.constants.flatMap ConstantLayout.bytes

/-- The bytes of a class file. -/
def bytes (l : ClassLayout) : Bytes :=
  ClassFile.magic ++ (l.version.bytes ++ (l.poolBytes ++
    (Bytes.ofUInt16 l.access ++ (Bytes.ofUInt16 l.thisClass ++
      (Bytes.ofUInt16 l.superClass ++ (Bytes.counted Bytes.ofUInt16 l.interfaces ++
        (Bytes.counted MemberLayout.bytes l.fields ++ (Bytes.counted MemberLayout.bytes l.methods ++
          Bytes.counted Attribute.bytes l.attributes))))))))

/-- The class file has the constants that the bodies and numbers make, the flags that their holders
know, and everything else as it is laid out. -/
structure StandsFor (l : ClassLayout) (f : ClassFile) : Prop where
  version : f.version = l.version
  constants : ∃ cs, List.Forall₂ ConstantLayout.StandsFor l.constants cs ∧
    f.constants = Slots.ofList 1 cs
  count : f.constants.next = 1 + (l.count.toNat - 1)
  access : f.access = .known .classes l.access
  thisClass : f.thisClass = l.thisClass
  superClass : f.superClass = l.superClass
  interfaces : f.interfaces = l.interfaces
  fields : List.Forall₂ MemberLayout.StandsFor l.fields f.fields
  methods : List.Forall₂ MemberLayout.StandsFor l.methods f.methods
  attributes : f.attributes = l.attributes

end ClassLayout

/-! ## What is read -/

theorem FileReader.consumes_u16 : Consumes u16 fun s n => s = Bytes.ofUInt16 n := .u16 _

/-- The kind that a byte stands for has that byte. -/
theorem HandleKind.code_of_ofCode? {code : UInt8} {kind : HandleKind}
    (h : ofCode? code = some kind) :
    kind.code = code := by
  unfold ofCode? at h
  split at h <;> cases h <;> rfl

/-- A kind of handle is taken from its code. -/
theorem HandleKind.consumes_read : Consumes HandleKind.read fun s kind => s = [kind.code] := by
  refine (Consumes.u8 _).bind fun s code hs => ?_
  split
  · next kind hkind =>
    refine .pure ?_
    rw [hs, List.append_nil, HandleKind.code_of_ofCode? hkind]
  · exact .throw

namespace Constant

/-- The bytes are those of some layout of the constant. -/
def LaidOut (s : Bytes) (c : Constant) : Prop :=
  ∃ l : ConstantLayout, l.StandsFor c ∧ l.bytes = s

/-- What follows the tag of a constant is its layout behind the tag. -/
theorem Follows.laidOut {tag : UInt8} {s : Bytes} {c : Constant} (h : Follows tag s c) :
    LaidOut (tag :: s) c := by
  refine ⟨.other c, ⟨rfl, fun t ht => h.ne_text ?_⟩, h.bytes_eq⟩
  rw [h.bytes_eq] at ht
  exact (List.cons.inj ht).1

/-- A constant of one number that is read behind its tag. -/
theorem consumes_number {α : Type} {tag : UInt8} {r : FileReader α} {write : α → Bytes}
    {make : α → Constant} (hr : Consumes r fun s a => s = write a)
    (h : ∀ a, Follows tag (write a) (make a)) :
    Consumes (do pure (make (← r))) fun s c => LaidOut (tag :: s) c := by
  refine hr.bind fun s a hs => .pure ?_
  rw [hs, List.append_nil]
  exact (h a).laidOut

/-- A constant of two numbers that are read behind its tag. -/
theorem consumes_pair {α : Type} {tag : UInt8} {r : FileReader α} {write : α → Bytes}
    {make : α → UInt16 → Constant} (hr : Consumes r fun s a => s = write a)
    (h : ∀ a b, Follows tag (write a ++ Bytes.ofUInt16 b) (make a b)) :
    Consumes (do pure (make (← r) (← u16))) fun s c => LaidOut (tag :: s) c := by
  refine hr.bind fun s a hs => consumes_u16.bind fun t b ht => .pure ?_
  rw [hs, ht, List.append_nil]
  exact (h a b).laidOut

/-- The bytes behind a tag are those of the constant that is made of them. -/
theorem Announces.consumes {tag : UInt8} {read : FileReader Constant} (h : Announces tag read) :
    Consumes read fun s c => LaidOut (tag :: s) c := by
  cases h with
  | text htag =>
    subst htag
    refine consumes_u16.bind fun s n hs => (Consumes.block _ n.toNat).bind fun t body ht => ?_
    obtain ⟨rfl, hlength⟩ := ht
    refine .lift fun c hc => ⟨.text t, ⟨hlength ▸ n.toNat_lt, hc⟩, ?_⟩
    rw [hs, List.append_nil, ConstantLayout.bytes, bodyBytes, Bytes.count, hlength,
      UInt16.ofNat_toNat]
  | number32 h => exact consumes_number (.u32 _) h
  | number64 h => exact consumes_number (.u64 _) h
  | slot h => exact consumes_number consumes_u16 h
  | pair h => exact consumes_pair consumes_u16 h
  | handle h => exact consumes_pair HandleKind.consumes_read h
  | invalid => exact .throw

/-- Every constant is taken from a layout of it. -/
theorem consumes_read : Consumes Constant.read LaidOut := by
  refine (Consumes.u8 _).bind fun s tag hs =>
    (announces_readTagged tag).consumes.mono fun t c hc => ?_
  rwa [hs]

end Constant

namespace ConstantPool

/-- The bytes of constants are taken one after the other. -/
theorem consumes_readAfter (n : Nat) (pool : ConstantPool) :
    Consumes (readAfter pool n) fun s pool' => ∃ ls cs,
      List.Forall₂ ConstantLayout.StandsFor ls cs ∧ ls.flatMap ConstantLayout.bytes = s ∧
        pool' = cs.foldl Slots.push pool ∧ pool'.next = pool.next + n := by
  induction n, pool using readAfter_induct with
  | zero pool =>
    rw [readAfter_zero]
    exact .pure ⟨[], [], .nil, rfl, rfl, rfl⟩
  | succ n pool ih =>
    rw [readAfter_succ]
    refine Constant.consumes_read.bind fun s c hc => ?_
    split
    · next hwidth =>
      refine (ih c hwidth).mono fun t pool' hpool => ?_
      obtain ⟨l, hl, rfl⟩ := hc
      obtain ⟨ls, cs, hls, rfl, rfl, hnext⟩ := hpool
      refine ⟨l :: ls, c :: cs, .cons hl hls, rfl, rfl, hnext.trans ?_⟩
      show pool.next + c.width + _ = _
      omega
    · exact .throw

end ConstantPool

/-- Flags are taken from the bits that may have more flags set than are known. -/
theorem Access.consumes_read (h : Holder) : Consumes (Access.read h) fun s a =>
    ∃ bits, a = .known h bits ∧ Bytes.ofUInt16 bits = s :=
  consumes_u16.bind fun s bits hs => .pure ⟨bits, rfl, by rw [hs, List.append_nil]⟩

/-- An attribute is taken from its bytes. -/
theorem Attribute.consumes_read :
    Consumes Attribute.read fun s a => ∃ a', a' = a ∧ Attribute.bytes a' = s := by
  refine consumes_u16.bind fun s name hs => (Consumes.u32 _).bind fun t n ht => ?_
  refine (Consumes.block _ n.toNat).bind fun u info hu => .pure ⟨_, rfl, ?_⟩
  obtain ⟨rfl, hlength⟩ := hu
  simp [Attribute.bytes, hs, ht, hlength]

/-- A member is taken from a layout of it. -/
theorem Member.consumes_read (h : Holder) : Consumes (Member.read h) fun s m =>
    ∃ l : MemberLayout, l.StandsFor m ∧ l.bytes = s := by
  refine (Access.consumes_read h).bind fun s access hs => ?_
  refine consumes_u16.bind fun t name ht => consumes_u16.bind fun u descriptor hu => ?_
  refine Attribute.consumes_read.counted.bind fun v attributes hv => ?_
  obtain ⟨bits, rfl, rfl⟩ := hs
  obtain ⟨-, attributes', hsame, rfl⟩ := hv
  rw [List.forall₂_eq_eq_eq] at hsame
  subst hsame
  refine .pure ⟨⟨bits, name, descriptor, attributes'⟩, ⟨rfl, rfl, rfl, rfl⟩, ?_⟩
  simp [MemberLayout.bytes, ht, hu]

namespace ClassLayout

open ClassFile (readMagic readVersion magic)

/-- Only the magic number is taken as such. -/
theorem consumes_readMagic : Consumes readMagic fun s _ => s = magic := by
  refine (Consumes.block _ 4).bind fun s found hs => ?_
  split
  · exact .throw
  · next hmagic =>
    rw [Ne, not_not] at hmagic
    exact .pure (by rw [hs.1, hmagic, List.append_nil])

/-- A version is taken from its bytes. -/
theorem consumes_readVersion : Consumes readVersion fun s version => s = version.bytes := by
  have hread : Consumes Version.read fun s version => s = Version.bytes version := by
    refine consumes_u16.bind fun s minor hs => consumes_u16.bind fun t major ht => .pure ?_
    rw [hs, ht, List.append_nil]
    rfl
  refine hread.bind fun s version hs => ?_
  split
  · exact .pure (by rw [hs, List.append_nil])
  · exact .throw

/-- Every class file is read from the bytes of a layout that stands for it. -/
theorem consumes_read : Consumes ClassFile.read fun s f =>
    ∃ l : ClassLayout, l.StandsFor f ∧ l.bytes = s := by
  refine consumes_readMagic.bind fun _ _ h₁ => consumes_readVersion.bind fun _ version h₂ => ?_
  have hpool : Consumes ConstantPool.read fun s pool => ∃ count ls cs,
      List.Forall₂ ConstantLayout.StandsFor ls cs ∧ pool = Slots.ofList 1 cs ∧
        pool.next = 1 + (UInt16.toNat count - 1) ∧
          Bytes.ofUInt16 count ++ ls.flatMap ConstantLayout.bytes = s := by
    refine consumes_u16.bind fun s count hs => ?_
    refine (ConstantPool.consumes_readAfter _ _).mono fun t pool hpool => ?_
    obtain ⟨ls, cs, hls, rfl, hcs, hnext⟩ := hpool
    exact ⟨count, ls, cs, hls, hcs, hnext, by rw [hs]⟩
  refine hpool.bind fun _ constants h₃ => (Access.consumes_read .classes).bind fun _ access h₄ => ?_
  refine consumes_u16.bind fun _ thisClass h₅ => consumes_u16.bind fun _ superClass h₆ => ?_
  have hslot : Consumes u16 fun s n => ∃ n', n' = n ∧ Bytes.ofUInt16 n' = s :=
    consumes_u16.mono fun s n hs => ⟨n, rfl, hs.symm⟩
  refine hslot.counted.bind fun _ interfaces h₇ => ?_
  refine (Member.consumes_read .fields).counted.bind fun _ fields h₈ => ?_
  refine (Member.consumes_read .methods).counted.bind fun _ methods h₉ => ?_
  refine Attribute.consumes_read.counted.bind fun _ attributes h₁₀ => .pure ?_
  obtain ⟨count, ls, cs, hls, hcs, hnext, rfl⟩ := h₃
  obtain ⟨bits, rfl, rfl⟩ := h₄
  obtain ⟨-, interfaces', hinterfaces, rfl⟩ := h₇
  obtain ⟨-, fields', hfields, rfl⟩ := h₈
  obtain ⟨-, methods', hmethods, rfl⟩ := h₉
  obtain ⟨-, attributes', hattributes, rfl⟩ := h₁₀
  rw [List.forall₂_eq_eq_eq] at hinterfaces hattributes
  subst hinterfaces hattributes
  refine ⟨⟨version, count, ls, bits, thisClass, superClass, interfaces', fields', methods',
    attributes'⟩, ⟨rfl, ⟨cs, hls, hcs⟩, hnext, rfl, rfl, rfl, rfl, hfields, hmethods, rfl⟩, ?_⟩
  simp only [bytes, poolBytes, h₁, h₂, h₅, h₆, List.append_nil]

/-- Every input that is read is the bytes of a layout of its file. -/
theorem exists_of_ofBytes {input : Bytes} {f : ClassFile} (h : ClassFile.ofBytes input = .ok f) :
    ∃ l : ClassLayout, l.StandsFor f ∧ l.bytes = input := by
  obtain ⟨s, hs, l, hl, hbytes⟩ := consumes_read input f [] (ClassFile.ofBytes_eq_ok_iff.1 h)
  exact ⟨l, hl, by rw [hbytes, hs, List.append_nil]⟩

end ClassLayout

end Crosswalk
