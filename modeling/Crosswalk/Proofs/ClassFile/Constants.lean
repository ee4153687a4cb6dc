import Crosswalk.ClassFile.Reading
import Crosswalk.Proofs.Reader.Reads
import Crosswalk.Proofs.Slots.Layout
import Crosswalk.Proofs.Text.Modified

/-!
# Constants and pools read back

The bytes of a constant are read as that constant, and those of a pool as that pool, if two bytes
are enough to count the bytes of every text (`reads_poolBytes`). A pool with a text that is too
long is never read back as it is (`spelled_of_readAfter`).
-/

namespace Crosswalk

open Reader (Reads Yields)

instance : LawfulWide Constant := ⟨fun c => by cases c <;> simp [Wide.width, Constant.width]⟩

/-! ## Numbers -/

namespace FileReader

theorem reads_u8 (b : UInt8) : Reads u8 [b] b := Reads.u8 _ b

theorem reads_u16 (n : UInt16) : Reads u16 (Bytes.ofUInt16 n) n := Reads.u16 _ n

theorem reads_u32 (n : UInt32) : Reads u32 (Bytes.ofUInt32 n) n := Reads.u32 _ n

theorem reads_u64 (n : UInt64) : Reads u64 (Bytes.ofUInt64 n) n := Reads.u64 _ n

theorem reads_block {n : Nat} (s : Bytes) (h : n = s.length) : Reads (block n) s s :=
  Reads.block _ s h

end FileReader

open FileReader

namespace Constant

/-- What the constants of every pool that is read have in common: a text that spells no characters
is one indeed. -/
def Regular : Constant → Prop
  | rawUtf8 body => body.length < 65536 ∧ Modified.IsRaw body
  | _ => True

/-- The bytes of a text can be counted. -/
def Spelled : Constant → Prop
  | utf8 text => Modified.Fits text
  | _ => True

/-! ## Reading what is written -/

/-- The tag of a constant decides what is read behind it. -/
theorem reads_cons {tag : UInt8} {s : Bytes} {c : Constant} (h : Reads (readTagged tag) s c) :
    Reads Constant.read (tag :: s) c :=
  (reads_u8 tag).bind h

/-- A body that can be counted is read back as the constant it makes. -/
theorem reads_body {body : Bytes} {c : Constant} (hlength : body.length < 65536)
    (hc : ofBody body = .ok c) : Reads Constant.read (1 :: bodyBytes body) c := by
  have hcount : (UInt16.ofNat body.length).toNat = body.length :=
    UInt16.toNat_ofNat_of_lt' hlength
  refine reads_cons ((reads_u16 (UInt16.ofNat body.length)).bind ?_)
  exact (reads_block body hcount).bind_lift hc

/-- A text is found again in its body. -/
theorem ofBody_encode (text : String) : ofBody (Modified.encode text) = .ok (.utf8 text) := by
  rw [ofBody, Modified.decodeUnits_encode]
  simp only [Utf16.ofUnits?_eq_some_iff.2 rfl]

/-- A body that spells no text is kept as it is. -/
theorem ofBody_raw {body : Bytes} (h : Modified.IsRaw body) :
    ofBody body = .ok (.rawUtf8 body) := by
  obtain ⟨us, hus, hnone⟩ := h
  rw [ofBody, hus]
  simp only [hnone]

/-- A constant with one slot. -/
theorem reads_slot {tag : UInt8} {k : UInt16 → Constant}
    (h : readTagged tag = do pure (k (← u16))) (a : UInt16) :
    Reads Constant.read (tag :: Bytes.ofUInt16 a) (k a) :=
  reads_cons (h ▸ (reads_u16 a).bind_pure)

/-- A constant with two slots. -/
theorem reads_pair {tag : UInt8} {k : UInt16 → UInt16 → Constant}
    (h : readTagged tag = do pure (k (← u16) (← u16))) (a b : UInt16) :
    Reads Constant.read (tag :: (Bytes.ofUInt16 a ++ Bytes.ofUInt16 b)) (k a b) :=
  reads_cons (h ▸ (reads_u16 a).bind (reads_u16 b).bind_pure)

/-- A constant with a number of four bytes. -/
theorem reads_number32 {tag : UInt8} {k : UInt32 → Constant}
    (h : readTagged tag = do pure (k (← u32))) (n : UInt32) :
    Reads Constant.read (tag :: Bytes.ofUInt32 n) (k n) :=
  reads_cons (h ▸ (reads_u32 n).bind_pure)

/-- A constant with a number of eight bytes. -/
theorem reads_number64 {tag : UInt8} {k : UInt64 → Constant}
    (h : readTagged tag = do pure (k (← u64))) (n : UInt64) :
    Reads Constant.read (tag :: Bytes.ofUInt64 n) (k n) :=
  reads_cons (h ▸ (reads_u64 n).bind_pure)

/-- The byte of a kind is read as that kind. -/
theorem reads_kind (kind : HandleKind) : Reads HandleKind.read [kind.code] kind := by
  refine (reads_u8 kind.code).bind_nil ?_
  rw [HandleKind.ofCode?_code]
  exact Reads.pure kind

/-- The bytes of a constant are read as that constant. -/
theorem reads_bytes {c : Constant} (hregular : c.Regular) (hspelled : c.Spelled) :
    Reads Constant.read c.bytes c := by
  cases c with
  | utf8 text => exact reads_body hspelled (ofBody_encode text)
  | rawUtf8 body => exact reads_body hregular.1 (ofBody_raw hregular.2)
  | integer n => exact reads_number32 (k := fun n => integer n.toInt32) rfl n.toUInt32
  | float x => exact reads_number32 (k := fun n => float ⟨n⟩) rfl x.bits
  | long n => exact reads_number64 (k := fun n => long n.toInt64) rfl n.toUInt64
  | double x => exact reads_number64 (k := fun n => double ⟨n⟩) rfl x.bits
  | className name => exact reads_slot rfl name
  | string text => exact reads_slot rfl text
  | fieldRef owner member => exact reads_pair rfl owner member
  | methodRef owner member ofInterface =>
    cases ofInterface with
    | false => exact reads_pair (k := (methodRef · · false)) rfl owner member
    | true => exact reads_pair (k := (methodRef · · true)) rfl owner member
  | nameAndType name descriptor => exact reads_pair rfl name descriptor
  | methodHandle kind member =>
    exact reads_cons ((reads_kind kind).bind (reads_u16 member).bind_pure)
  | methodType descriptor => exact reads_slot rfl descriptor
  | dynamic bootstrap member => exact reads_pair rfl bootstrap member
  | invokeDynamic bootstrap member => exact reads_pair rfl bootstrap member
  | moduleName name => exact reads_slot rfl name
  | packageName name => exact reads_slot rfl name

/-! ## What is read -/

/-- Constants take one slot or two. -/
theorem width_eq (c : Constant) : c.width = 1 ∨ c.width = 2 := by
  cases c <;> simp [width]

/-- A body makes a text, or is kept because it spells none. -/
theorem regular_of_ofBody {body : Bytes} {c : Constant} (hlength : body.length < 65536)
    (h : ofBody body = .ok c) : c.Regular := by
  rw [ofBody] at h
  split at h
  · cases h
  · next us hus =>
    split at h
    · cases h
      trivial
    · next hnone =>
      cases h
      exact ⟨hlength, us, hus, hnone⟩

/-- The constant is no text, and these bytes stand behind its tag. -/
structure Follows (tag : UInt8) (s : Bytes) (c : Constant) : Prop where
  ne_text : tag ≠ 1
  bytes_eq : c.bytes = tag :: s

/-- A text that is kept as its bytes has the tag of a text. -/
theorem Follows.regular {tag : UInt8} {s : Bytes} {c : Constant} (h : Follows tag s c) :
    c.Regular := by
  cases c with
  | rawUtf8 body => exact absurd (List.cons.inj h.bytes_eq).1.symm h.ne_text
  | _ => trivial

/-- The forms in which constants are read behind their tags: the body of a text, or numbers that
are found behind the tag when the constant is written again. -/
inductive Announces (tag : UInt8) : FileReader Constant → Prop
  | text (h : tag = 1) :
    Announces tag (do
      let length ← u16
      let body ← block length.toNat
      ofBody body)
  | number32 {make : UInt32 → Constant} (h : ∀ n, Follows tag (Bytes.ofUInt32 n) (make n)) :
    Announces tag (do pure (make (← u32)))
  | number64 {make : UInt64 → Constant} (h : ∀ n, Follows tag (Bytes.ofUInt64 n) (make n)) :
    Announces tag (do pure (make (← u64)))
  | slot {make : Index → Constant} (h : ∀ i, Follows tag (Bytes.ofUInt16 i) (make i)) :
    Announces tag (do pure (make (← u16)))
  | pair {make : UInt16 → Index → Constant}
      (h : ∀ i j, Follows tag (Bytes.ofUInt16 i ++ Bytes.ofUInt16 j) (make i j)) :
    Announces tag (do pure (make (← u16) (← u16)))
  | handle {make : HandleKind → Index → Constant}
      (h : ∀ kind i, Follows tag (kind.code :: Bytes.ofUInt16 i) (make kind i)) :
    Announces tag (do pure (make (← HandleKind.read) (← u16)))
  | invalid : Announces tag (throw (.invalidConstantTag tag))

/-- Every tag either announces a constant, or is refused. -/
theorem announces_readTagged (tag : UInt8) : Announces tag (readTagged tag) := by
  unfold readTagged
  split
  · exact .text rfl
  · exact .number32 fun _ => ⟨by decide, rfl⟩
  · exact .number32 fun _ => ⟨by decide, rfl⟩
  · exact .number64 fun _ => ⟨by decide, rfl⟩
  · exact .number64 fun _ => ⟨by decide, rfl⟩
  · exact .slot fun _ => ⟨by decide, rfl⟩
  · exact .slot fun _ => ⟨by decide, rfl⟩
  · exact .pair fun _ _ => ⟨by decide, rfl⟩
  · exact .pair fun _ _ => ⟨by decide, rfl⟩
  · exact .pair fun _ _ => ⟨by decide, rfl⟩
  · exact .pair fun _ _ => ⟨by decide, rfl⟩
  · exact .handle fun _ _ => ⟨by decide, rfl⟩
  · exact .slot fun _ => ⟨by decide, rfl⟩
  · exact .pair fun _ _ => ⟨by decide, rfl⟩
  · exact .pair fun _ _ => ⟨by decide, rfl⟩
  · exact .slot fun _ => ⟨by decide, rfl⟩
  · exact .slot fun _ => ⟨by decide, rfl⟩
  · exact .invalid

/-- What is read behind a tag takes bytes, and every constant made of it is regular. -/
theorem Announces.yields {tag : UInt8} {read : FileReader Constant} (h : Announces tag read) :
    Yields read fun c _ => c.Regular := by
  cases h with
  | text =>
    refine (Yields.u16 _).bind fun n _ _ => (Yields.block _ _).bind fun body _ hbody => ?_
    refine Yields.lift fun c hc => regular_of_ofBody ?_ hc
    rw [hbody.1]
    exact n.toNat_lt
  | number32 h => exact (Yields.u32 _).bind fun n _ _ => Yields.pure (h n).regular
  | number64 h =>
    have hu64 : Yields u64 fun _ _ => True :=
      (Yields.u32 _).bind fun _ _ _ => (Yields.u32 _).bind fun _ _ _ => Yields.pure trivial
    exact hu64.bind fun n _ _ => Yields.pure (h n).regular
  | slot h => exact (Yields.u16 _).bind fun i _ _ => Yields.pure (h i).regular
  | pair h =>
    exact (Yields.u16 _).bind fun i _ _ => (Yields.u16 _).bind fun j _ _ =>
      Yields.pure (h i j).regular
  | handle h =>
    have hkind : Yields HandleKind.read fun _ _ => True := by
      refine (Yields.u8 _).bind fun code _ _ => ?_
      split
      · exact Yields.pure trivial
      · exact Yields.throw
    exact hkind.bind fun kind _ _ => (Yields.u16 _).bind fun i _ _ =>
      Yields.pure (h kind i).regular
  | invalid => exact Yields.throw

/-- Whatever is read as a constant has its parts in range. -/
theorem yields_read : Yields Constant.read fun c _ => c.Regular :=
  (Yields.u8 _).bind fun tag _ _ => (announces_readTagged tag).yields

/-- Only a body that spells a text makes that text. -/
theorem decodeUnits_of_ofBody {body : Bytes} {text : String} (h : ofBody body = .ok (.utf8 text)) :
    Modified.decodeUnits body = .ok (Utf16.units text) := by
  rw [ofBody] at h
  split at h
  · cases h
  · next us hus =>
    split at h
    · next text' htext =>
      cases h
      rw [hus, Utf16.ofUnits?_eq_some_iff.1 htext]
    · cases h

/-- A text with more bytes than can be counted is read as something else. -/
theorem spelled_of_read {c : Constant} {more rest : Bytes}
    (h : Constant.read (c.bytes ++ more) = .ok (c, rest)) : c.Spelled := by
  cases c with
  | utf8 text =>
    by_contra hlong
    have hlength : 65536 ≤ (Modified.encode text).length := Nat.le_of_not_lt hlong
    obtain ⟨tag, s, htag, h⟩ := Reader.of_bind_ok h
    cases htag
    obtain ⟨n, s', hn, h⟩ := Reader.of_bind_ok h
    have hcount := reads_u16 (UInt16.ofNat (Modified.encode text).length)
      (Modified.encode text ++ more)
    rw [← List.append_assoc] at hcount
    cases hcount.symm.trans hn
    obtain ⟨body, s'', hbody, h⟩ := Reader.of_bind_ok h
    -- The count wraps around, so that only a part of the text is taken.
    have hwrap : (UInt16.ofNat (Modified.encode text).length).toNat
        < (Modified.encode text).length := by
      have := (UInt16.ofNat (Modified.encode text).length).toNat_lt
      omega
    generalize (UInt16.ofNat (Modified.encode text).length).toNat = n at hwrap hbody
    simp only [block, Reader.block] at hbody
    split at hbody
    · cases hbody
      rw [List.take_append_of_le_length (Nat.le_of_lt hwrap)] at h
      obtain ⟨c, hc⟩ : ∃ c, ofBody ((Modified.encode text).take n) = .ok c := by
        cases hc : ofBody ((Modified.encode text).take n) with
        | ok c => exact ⟨c, rfl⟩
        | error e =>
          rw [hc] at h
          cases h
      rw [hc] at h
      cases h
      refine Modified.decodeUnits_ne_of_prefix (List.take_append_drop n _).symm ?_
        (decodeUnits_of_ofBody hc)
      intro hdrop
      rw [List.drop_eq_nil_iff] at hdrop
      omega
    · cases hbody
  | _ => trivial

end Constant

/-! ## Pools -/

namespace ConstantPool

/-- Without slots to fill the pool is complete. -/
theorem readAfter_zero (pool : ConstantPool) :
    readAfter pool 0 = (pure pool : FileReader ConstantPool) := by
  funext input
  rw [readAfter.eq_def]
  rfl

/-- Reading one constant of a pool takes as many slots as the constant is wide. -/
theorem readAfter_succ (pool : ConstantPool) (n : Nat) :
    readAfter pool (n + 1) = (do
      let c ← Constant.read
      if c.width ≤ n + 1 then readAfter (pool.push c) (n + 1 - c.width)
      else throw .overrunningConstant : FileReader ConstantPool) := by
  funext input
  rw [readAfter.eq_def]
  cases hread : Constant.read input with
  | error e => rw [Reader.bind_error hread]
  | ok next =>
    obtain ⟨c, rest⟩ := next
    rw [Reader.bind_ok hread]
    rcases c.width_eq with hw | hw
    · simp [hw]
    · cases n with
      | zero =>
        simp only [hw]
        rfl
      | succ n => simp [hw]

/-- What holds when all slots are taken, and behind a constant if it holds in front of the others,
holds of every pool that goes on. -/
theorem readAfter_induct {motive : Nat → ConstantPool → Prop} (zero : ∀ pool, motive 0 pool)
    (succ : ∀ n pool, (∀ c : Constant, c.width ≤ n + 1 → motive (n + 1 - c.width) (pool.push c)) →
      motive (n + 1) pool) (n : Nat) (pool : ConstantPool) : motive n pool := by
  induction n using Nat.strongRecOn generalizing pool with
  | ind n ih =>
    cases n with
    | zero => exact zero pool
    | succ n =>
      refine succ n pool fun c hwidth => ih _ ?_ _
      have hpos : 0 < c.width := LawfulWide.width_pos c
      omega

/-- Constants in a row are read back behind those already read. -/
theorem readAfter_flatMap {p : ConstantPool} {l : List (Nat × Constant)} {stop : Nat}
    (hlaid : Slots.Laid p.next l stop)
    (hregular : ∀ item ∈ l, item.2.Regular) (hspelled : ∀ item ∈ l, item.2.Spelled)
    (rest : Bytes) :
    readAfter p (stop - p.next) (l.flatMap (fun item => item.2.bytes) ++ rest)
      = .ok ((l.map Prod.snd).foldl Slots.push p, rest) := by
  induction l generalizing p with
  | nil =>
    rw [show stop = p.next from hlaid, Nat.sub_self, readAfter_zero]
    rfl
  | cons item l ih =>
    obtain ⟨slot, c⟩ := item
    obtain ⟨-, hrest⟩ := hlaid
    have hpos : 0 < c.width := LawfulWide.width_pos c
    have hstop : p.next + c.width ≤ stop := hrest.bounds.1
    rw [List.forall_mem_cons] at hregular hspelled
    have hread := Constant.reads_bytes hregular.1 hspelled.1
      (l.flatMap (fun item => item.2.bytes) ++ rest)
    have hslots : stop - p.next = (stop - p.next - 1) + 1 := by omega
    have hleft : stop - p.next - 1 + 1 - c.width = stop - (p.push c).next := by
      rw [Slots.next_push]
      show _ = stop - (p.next + c.width)
      omega
    have hroom : c.width ≤ stop - p.next - 1 + 1 := by omega
    rw [hslots, readAfter_succ, List.flatMap_cons, List.append_assoc, Reader.bind_ok hread,
      if_pos hroom, hleft]
    exact ih (p := p.push c) hrest hregular.2 hspelled.2

/-- The bytes of a pool are read as that pool. -/
theorem reads_poolBytes {pool : ConstantPool} (hlaid : pool.LaidOut 1) (hlimit : pool.next < 65536)
    (hregular : ∀ item ∈ pool.toList, item.2.Regular)
    (hspelled : ∀ item ∈ pool.toList, item.2.Spelled) :
    Reads ConstantPool.read (ClassFile.poolBytes pool) pool := by
  refine (reads_u16 (UInt16.ofNat pool.next)).bind fun rest => ?_
  rw [UInt16.toNat_ofNat_of_lt' hlimit]
  have h := readAfter_flatMap (p := Slots.startingAt 1) hlaid hregular hspelled rest
  rwa [Slots.foldl_push (l := pool.toList) (Slots.laidOut_startingAt 1) hlaid rfl] at h

/-- A constant with its parts in range may be added to such a pool. -/
theorem regular_push {pool : ConstantPool} (h : ∀ item ∈ pool.toList, item.2.Regular) {c : Constant}
    (hc : c.Regular) : ∀ item ∈ (pool.push c).toList, item.2.Regular := by
  rw [Slots.toList_push, List.forall_mem_append, List.forall_mem_singleton]
  exact ⟨h, hc⟩

/-- Every pool that is read leaves no gap and has regular constants. -/
theorem yields_readAfter (n : Nat) (pool : ConstantPool) (hlaid : pool.LaidOut 1)
    (hregular : ∀ item ∈ pool.toList, item.2.Regular) :
    Yields (readAfter pool n) fun pool' _ =>
      pool'.LaidOut 1 ∧ pool'.next = pool.next + n ∧ pool.toList <+: pool'.toList ∧
        ∀ item ∈ pool'.toList, item.2.Regular := by
  induction n, pool using readAfter_induct with
  | zero pool =>
    rw [readAfter_zero]
    exact Yields.pure ⟨hlaid, rfl, List.prefix_rfl, hregular⟩
  | succ n pool ih =>
    rw [readAfter_succ]
    refine Constant.yields_read.bind fun c k hc => ?_
    split
    · next hwidth =>
      refine (ih c hwidth (hlaid.push c) (regular_push hregular hc)).mono fun pool' k' hpool => ?_
      obtain ⟨hlaid', hnext, hprefix, hregular'⟩ := hpool
      rw [Slots.toList_push] at hprefix
      refine ⟨hlaid', ?_, (List.prefix_append _ _).trans hprefix, hregular'⟩
      rw [hnext, Slots.next_push]
      show pool.next + c.width + _ = _
      omega
    · exact Yields.throw

/-- What is read as a pool is laid out from the first slot on, its number fits its field, and its
constants have their parts in range. -/
theorem yields_read :
    Yields ConstantPool.read fun pool _ =>
      pool.LaidOut 1 ∧ pool.next < 65536 ∧ ∀ item ∈ pool.toList, item.2.Regular := by
  refine (Yields.u16 _).bind fun count _ _ => ?_
  refine (yields_readAfter _ _ (Slots.laidOut_startingAt 1) (by simp)).mono fun pool _ hpool => ?_
  have := count.toNat_lt
  obtain ⟨hlaid, hnext, -, hregular⟩ := hpool
  rw [Slots.next_startingAt] at hnext
  exact ⟨hlaid, by omega, hregular⟩

/-- If constants are read back as they are, the bytes of all their texts can be counted. -/
theorem spelled_of_readAfter {pool pool' : ConstantPool} {l : List (Nat × Constant)} {n : Nat}
    {more rest : Bytes} (hlaid : pool.LaidOut 1) (hregular : ∀ item ∈ pool.toList, item.2.Regular)
    (hlist : pool'.toList = pool.toList ++ l)
    (h : readAfter pool n (l.flatMap (fun item => item.2.bytes) ++ more) = .ok (pool', rest)) :
    ∀ item ∈ l, item.2.Spelled := by
  induction l generalizing pool n with
  | nil => simp
  | cons item l ih =>
    cases n with
    | zero =>
      rw [readAfter_zero] at h
      cases h
      have hlength := congrArg List.length hlist
      simp at hlength
    | succ n =>
      rw [readAfter_succ, List.flatMap_cons, List.append_assoc] at h
      obtain ⟨c, middle, hc, h⟩ := Reader.of_bind_ok h
      split at h
      · have hcregular : c.Regular := (Constant.yields_read _ c middle hc).2
        have hpush := regular_push hregular hcregular
        obtain ⟨-, -, -, hprefix, -⟩ :=
          yields_readAfter _ (pool.push c) (hlaid.push c) hpush _ pool' rest h
        rw [hlist, Slots.toList_push, List.prefix_append_right_inj,
          List.cons_prefix_cons] at hprefix
        obtain ⟨rfl, -⟩ := hprefix
        have hspelled : c.Spelled := Constant.spelled_of_read hc
        -- What is left of the bytes is what the other constants were written as.
        cases hc.symm.trans (Constant.reads_bytes hcregular hspelled _)
        have hrest := ih (hlaid.push c) hpush (by rw [hlist, Slots.toList_push]; simp) h
        exact List.forall_mem_cons.2 ⟨hspelled, hrest⟩
      · cases h

end ConstantPool

end Crosswalk
