import Mathlib
import Crosswalk.Proofs.ClassFile.Layout
import Crosswalk.Proofs.Text.Sequences

/-!
# Which class files are written as they are read

What a class file is written as differs from the bytes it was read from wherever these have a choice
that the class file does not keep: an empty pool that is announced by 0, flags that their holder
does not know, and texts that are not spelled in the shortest way. Two stretches of bytes that are
`Framed` are the same whenever they start two equal inputs, and every part of a class file is framed
with what it was read from; so deviations cannot make up for one another
(`ClassFile.byte_exact_iff`).
-/

namespace Crosswalk

/-! ## Stretches that cannot be mistaken -/

/-- If two inputs that start with the given stretches are equal, then so are the stretches. -/
def Framed (s t : Bytes) : Prop :=
  ∀ x y, s ++ x = t ++ y → s = t ∧ x = y

namespace Framed

variable {s t x y : Bytes}

/-- Texts of the same length are framed alike. -/
theorem of_length (h : s.length = t.length) : Framed s t :=
  fun _ _ heq => List.append_inj heq h

theorem refl (s : Bytes) : Framed s s :=
  of_length rfl

/-- Two inputs that start with framed stretches are equal part by part. -/
theorem append_eq_iff (h : Framed s t) : s ++ x = t ++ y ↔ s = t ∧ x = y := by
  constructor
  · exact h x y
  · rintro ⟨rfl, rfl⟩
    rfl

theorem append (h : Framed s t) (h' : Framed x y) : Framed (s ++ x) (t ++ y) := by
  intro u v heq
  rw [List.append_assoc, List.append_assoc] at heq
  obtain ⟨rfl, hrest⟩ := h _ _ heq
  obtain ⟨rfl, rfl⟩ := h' _ _ hrest
  exact ⟨rfl, rfl⟩

variable {α β : Type} {f : α → Bytes} {g : β → Bytes} {exact : β → Prop} {as : List α} {bs : List β}

/-- Rows of framed stretches are framed, and equal exactly if all their parts are. -/
theorem flatMap (h : List.Forall₂ (fun a b => Framed (f a) (g b) ∧ (f a = g b ↔ exact b)) as bs) :
    Framed (as.flatMap f) (bs.flatMap g) ∧
      (as.flatMap f = bs.flatMap g ↔ ∀ b ∈ bs, exact b) := by
  induction h with
  | nil => exact ⟨refl _, iff_of_true rfl (by simp)⟩
  | cons hfirst _ ih =>
    obtain ⟨hframed, hiff⟩ := hfirst
    rw [List.flatMap_cons, List.flatMap_cons, List.forall_mem_cons,
      hframed.append_eq_iff, ih.2, hiff]
    exact ⟨hframed.append ih.1, Iff.rfl⟩

/-- Counted rows of framed stretches are framed, and equal exactly if all their parts are. -/
theorem counted (h : List.Forall₂ (fun a b => Framed (f a) (g b) ∧ (f a = g b ↔ exact b)) as bs) :
    Framed (Bytes.counted f as) (Bytes.counted g bs) ∧
      (Bytes.counted f as = Bytes.counted g bs ↔ ∀ b ∈ bs, exact b) := by
  rw [Bytes.counted, Bytes.counted, h.length_eq]
  obtain ⟨hframed, hiff⟩ := flatMap h
  rw [(refl _).append_eq_iff, hiff, eq_self_iff_true, true_and]
  exact ⟨(refl _).append hframed, Iff.rfl⟩

end Framed

/-- A number in two bytes can be told from them. -/
theorem ofUInt16_inj {m n : UInt16} : Bytes.ofUInt16 m = Bytes.ofUInt16 n ↔ m = n := by
  constructor
  · intro h
    have hread := (Reader.Reads.u16 () m []).symm.trans
      ((congrArg (fun s => Reader.u16 () (s ++ [])) h).trans (Reader.Reads.u16 () n []))
    cases hread
    rfl
  · rintro rfl
    rfl

/-- Numbers in two bytes are framed alike. -/
theorem framed_ofUInt16 (m n : UInt16) : Framed (Bytes.ofUInt16 m) (Bytes.ofUInt16 n) :=
  .of_length rfl

/-! ## Constants -/

namespace ConstantLayout

/-- A body that spells a text does so in the shortest way. -/
def Exact : ConstantLayout → Prop
  | text body => (∃ s, Modified.decode body = .ok s) → Modified.Canonical body
  | other _ => True

/-- A body makes the text that it spells, or is kept as it is. -/
theorem cases_of_ofBody {body : Bytes} {c : Constant} (h : Constant.ofBody body = .ok c) :
    (∃ s, c = .utf8 s ∧ Modified.decodeUnits body = .ok (Utf16.units s)) ∨
      c = .rawUtf8 body ∧ ¬∃ s, Modified.decode body = .ok s := by
  rw [Constant.ofBody] at h
  split at h
  · cases h
  · next us hus =>
    split at h
    · next text htext =>
      cases h
      exact .inl ⟨text, rfl, by rw [hus, Utf16.ofUnits?_eq_some_iff.1 htext]⟩
    · next hnone =>
      cases h
      refine .inr ⟨rfl, ?_⟩
      rintro ⟨s, hs⟩
      rw [Modified.decode_eq_ok_iff, hus, Except.ok.injEq] at hs
      rw [hs, Utf16.ofUnits?_eq_some_iff.2 rfl] at hnone
      cases hnone

/-- A text is framed with the body that it is read from, as two bytes tell the two lengths apart. -/
theorem framed_body {body : Bytes} {s : String} (hlength : body.length < 65536)
    (h : Modified.decodeUnits body = .ok (Utf16.units s)) :
    Framed (Constant.bodyBytes (Modified.encode s)) (Constant.bodyBytes body) := by
  intro x y heq
  have hle : (Modified.encode s).length ≤ 2 * body.length := Modified.length_flatMap_encodeUnit_le h
  rw [Constant.bodyBytes, Constant.bodyBytes, List.append_assoc, List.append_assoc,
    Bytes.count, Bytes.count, (framed_ofUInt16 _ _).append_eq_iff, ofUInt16_inj] at heq
  obtain ⟨hcount, hrest⟩ := heq
  have hmod := congrArg UInt16.toNat hcount
  rw [UInt16.toNat_ofNat', UInt16.toNat_ofNat'] at hmod
  have hsame : (Modified.encode s).length = body.length := by
    -- Less than 65536 apart and the same modulo 65536, they are equal.
    omega
  obtain ⟨hbody, hxy⟩ := List.append_inj hrest hsame
  rw [Constant.bodyBytes, Constant.bodyBytes, hbody]
  exact ⟨rfl, hxy⟩

/-- A constant is framed with the layout it is read from, and written alike exactly if the layout
has no choice. -/
theorem framed_and_iff {l : ConstantLayout} {c : Constant} (h : l.StandsFor c) :
    Framed c.bytes l.bytes ∧ (c.bytes = l.bytes ↔ l.Exact) := by
  cases l with
  | other c' =>
    obtain ⟨rfl, -⟩ := h
    exact ⟨.refl _, iff_of_true rfl trivial⟩
  | text body =>
    obtain ⟨hlength, hbody⟩ := h
    rcases cases_of_ofBody hbody with ⟨s, rfl, hunits⟩ | ⟨rfl, hnone⟩
    · have hframed := framed_body hlength hunits
      refine ⟨(Framed.refl [1]).append hframed, ?_⟩
      have hwritten : Constant.bodyBytes (Modified.encode s) = Constant.bodyBytes body ↔
          Modified.encode s = body := by
        refine ⟨fun heq => ?_, fun heq => by rw [heq]⟩
        exact (List.append_inj heq rfl).2
      show 1 :: _ = 1 :: _ ↔ _
      rw [List.cons.injEq, eq_self_iff_true, true_and, hwritten, Modified.encode,
        Modified.flatMap_encodeUnit_eq_iff hunits]
      exact ⟨fun hcanonical _ => hcanonical,
        fun hexact => hexact ⟨s, Modified.decode_eq_ok_iff.2 hunits⟩⟩
    · exact ⟨.refl _, iff_of_true rfl fun hdecode => absurd hdecode hnone⟩

end ConstantLayout

/-! ## Members -/

namespace MemberLayout

/-- The holder knows all the flags. -/
def Exact (h : Holder) (l : MemberLayout) : Prop :=
  l.access &&& h.mask = l.access

variable {h : Holder} {l : MemberLayout} {m : Member h}

/-- A member is framed with its layout, and written alike exactly if its flags are known. -/
theorem framed_and_iff (hm : l.StandsFor m) :
    Framed m.bytes l.bytes ∧ (m.bytes = l.bytes ↔ l.Exact h) := by
  obtain ⟨hbits, hname, hdescriptor, hattributes⟩ := hm
  simp only [Member.bytes, bytes, hname, hdescriptor, hattributes, List.append_assoc]
  rw [(framed_ofUInt16 _ _).append_eq_iff, ofUInt16_inj, hbits]
  exact ⟨(framed_ofUInt16 _ _).append (.refl _), ⟨fun heq => heq.1, fun heq => ⟨heq, rfl⟩⟩⟩

end MemberLayout

/-! ## Class files -/

/-- The layout makes no use of the choices that it has: the slots are counted by no other number
than 1 if there are none, every word of flags has known ones only, and no text is spelled otherwise
than in the shortest way. -/
structure ClassLayout.Exact (l : ClassLayout) : Prop where
  count : l.count ≠ 0
  access : l.access &&& Holder.classes.mask = l.access
  fields : ∀ m ∈ l.fields, m.access &&& Holder.fields.mask = m.access
  methods : ∀ m ∈ l.methods, m.access &&& Holder.methods.mask = m.access
  texts : ∀ body, .text body ∈ l.constants → (∃ s, Modified.decode body = .ok s) →
    (0 : UInt8) ∉ body ∧ ∀ s, s <:+: body → ¬Modified.Overlong s

namespace ClassFile

variable {l : ClassLayout} {f : ClassFile}

/-- The pool is framed with its layout, and written alike exactly if it is not announced by 0 and
its texts are spelled in the shortest way. -/
theorem framed_poolBytes (h : l.StandsFor f) :
    Framed (poolBytes f.constants) l.poolBytes ∧
      (poolBytes f.constants = l.poolBytes ↔
        l.count ≠ 0 ∧ ∀ c ∈ l.constants, c.Exact) := by
  obtain ⟨cs, hcs, hconstants⟩ := h.constants
  obtain ⟨items, hlist, hitems, -⟩ := Slots.foldl_push_eq (Slots.startingAt 1) cs
  have hbytes :
      f.constants.toList.flatMap (fun item => item.2.bytes) = cs.flatMap Constant.bytes := by
    rw [hconstants, Slots.ofList, hlist, ← hitems, List.flatMap_map]
    rfl
  have hcount : UInt16.ofNat f.constants.next = l.count ↔ l.count ≠ 0 := by
    rw [h.count, Ne, ← UInt16.toNat_inj, ← UInt16.toNat_inj, UInt16.toNat_ofNat']
    have := l.count.toNat_lt
    simp only [UInt16.reduceToNat]
    omega
  obtain ⟨hframed, hiff⟩ :=
    Framed.flatMap (hcs.flip.imp fun _ _ hc => ConstantLayout.framed_and_iff hc)
  rw [poolBytes, ClassLayout.poolBytes, hbytes, Bytes.count, (framed_ofUInt16 _ _).append_eq_iff,
    ofUInt16_inj, hcount, hiff]
  exact ⟨(framed_ofUInt16 _ _).append hframed, Iff.rfl⟩

/-- A class file is written as it is laid out exactly if the layout makes no use of its choices. -/
theorem bytes_eq_iff (h : l.StandsFor f) : f.bytes = l.bytes ↔ l.Exact := by
  obtain ⟨hpool, hpoolIff⟩ := framed_poolBytes h
  obtain ⟨hfields, hfieldsIff⟩ :=
    Framed.counted (h.fields.flip.imp fun _ _ hm => MemberLayout.framed_and_iff hm)
  obtain ⟨hmethods, hmethodsIff⟩ :=
    Framed.counted (h.methods.flip.imp fun _ _ hm => MemberLayout.framed_and_iff hm)
  have haccess : f.access.bits = l.access ↔ l.access &&& Holder.classes.mask = l.access := by
    rw [h.access]
    rfl
  rw [bytes, ClassLayout.bytes, h.version, h.thisClass, h.superClass, h.interfaces, h.attributes,
    (Framed.refl _).append_eq_iff, (Framed.refl _).append_eq_iff, hpool.append_eq_iff,
    (framed_ofUInt16 _ _).append_eq_iff, (Framed.refl _).append_eq_iff,
    (Framed.refl _).append_eq_iff, (Framed.refl _).append_eq_iff, hfields.append_eq_iff,
    hmethods.append_eq_iff, hpoolIff, ofUInt16_inj, haccess, hfieldsIff, hmethodsIff]
  constructor
  · rintro ⟨-, -, ⟨hcount, htexts⟩, hclass, -, -, -, hfields, hmethods, -⟩
    refine ⟨hcount, hclass, hfields, hmethods, fun body hbody hspells => ?_⟩
    obtain ⟨hzero, hshortest⟩ := htexts _ hbody hspells
    exact ⟨hzero, hshortest⟩
  · intro hexact
    refine ⟨rfl, rfl, ⟨hexact.count, fun c hc => ?_⟩, hexact.access, rfl, rfl, rfl, hexact.fields,
      hexact.methods, rfl⟩
    cases c with
    | text body =>
      intro hspells
      obtain ⟨hzero, hshortest⟩ := hexact.texts body hc hspells
      exact ⟨hzero, hshortest⟩
    | other c => trivial

/-- Every class file is read from bytes with a layout that stands for it, and it is written as those
bytes exactly if the layout makes no use of its choices: the number of slots is not 0, every word of
flags has only bits that its holder knows, and no text of the pool has a zero byte or an overlong
sequence. -/
theorem byte_exact_iff {input : Bytes} (hf : ofBytes input = .ok f) :
    (∃ l : ClassLayout, l.StandsFor f ∧ l.bytes = input) ∧
      ∀ l : ClassLayout, l.StandsFor f → l.bytes = input → (f.bytes = input ↔ l.Exact) := by
  refine ⟨ClassLayout.exists_of_ofBytes hf, fun l hl hbytes => ?_⟩
  rw [← hbytes]
  exact bytes_eq_iff hl

/-- A class file without constants, as it is laid out with the given number of slots. -/
def poolless (count : UInt16) : ClassLayout where
  version := ⟨52, 0⟩
  count := count
  constants := []
  access := 0x21
  thisClass := 0
  superClass := 0
  interfaces := []
  fields := []
  methods := []
  attributes := []

/-- The same class file is read whether its empty pool is announced by 0 or by 1, but it is written
with 1. -/
theorem byte_exact_iff_poolless : ∃ f, ofBytes (poolless 0).bytes = .ok f ∧
    ofBytes (poolless 1).bytes = .ok f ∧ f.bytes ≠ (poolless 0).bytes ∧
      f.bytes = (poolless 1).bytes := by
  let f : ClassFile := ⟨⟨52, 0⟩, Slots.ofList 1 [], .known _ 0x21, 0, 0, [], [], [], []⟩
  have hread : ofBytes (poolless 0).bytes = .ok f := by cbv
  have hread' : ofBytes (poolless 1).bytes = .ok f := by cbv
  have hstands : (poolless 0).StandsFor f :=
    ⟨rfl, ⟨[], .nil, rfl⟩, rfl, rfl, rfl, rfl, rfl, .nil, .nil, rfl⟩
  have hstands' : (poolless 1).StandsFor f :=
    ⟨rfl, ⟨[], .nil, rfl⟩, rfl, rfl, rfl, rfl, rfl, .nil, .nil, rfl⟩
  have hexact' : (poolless 1).Exact :=
    ⟨by decide, by decide, by simp [poolless], by simp [poolless], by simp [poolless]⟩
  refine ⟨f, hread, hread', fun heq => ?_, ((byte_exact_iff hread').2 _ hstands' rfl).2 hexact'⟩
  exact (((byte_exact_iff hread).2 _ hstands rfl).1 heq).count rfl

end ClassFile

end Crosswalk
