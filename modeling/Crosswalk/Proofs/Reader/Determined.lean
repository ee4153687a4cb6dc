import Crosswalk.Proofs.Reader.Bodies

/-!
# Readers that take a determined length

Wherever a reader succeeds, it has taken some bytes from the front, and `Consumes r p` says which:
they have the property `p` together with the answer. Most readers are determined by those bytes
alone: they answer the same whatever comes behind them, and run out if the end of them is missing
(`Determined`). A determined reader of a whole body accepts neither a part of what it accepts nor
more than that (`Scope.whole_of_uneven`).
-/

namespace Crosswalk

/-- One of two different stretches of bytes goes on where the other ends. -/
def Uneven (s t : Bytes) : Prop :=
  s ≠ t ∧ (s <+: t ∨ t <+: s)

namespace Bytes

/-! ## Numbers and their bytes -/

/-- The bytes of the number that two bytes make up are those two. -/
theorem ofUInt16_toUInt16 (high low : UInt8) : ofUInt16 (toUInt16 high low) = [high, low] := by
  have hhigh := high.toNat_lt
  have hlow := low.toNat_lt
  have hfirst : (toUInt16 high low / 256).toUInt8 = high := by
    apply UInt8.toNat_inj.1
    simp only [toUInt16, UInt16.toNat_add, UInt16.toNat_mul, UInt8.toNat_toUInt16,
      UInt16.toNat_toUInt8, UInt16.toNat_div, UInt16.reduceToNat]
    omega
  have hsecond : (toUInt16 high low).toUInt8 = low := by
    apply UInt8.toNat_inj.1
    simp only [toUInt16, UInt16.toNat_add, UInt16.toNat_mul, UInt8.toNat_toUInt16,
      UInt16.toNat_toUInt8, UInt16.reduceToNat]
    omega
  rw [ofUInt16, hfirst, hsecond]

/-- The bytes of the number that two halves make up are those of the halves. -/
theorem ofUInt32_toUInt32 (high low : UInt16) :
    ofUInt32 (toUInt32 high low) = ofUInt16 high ++ ofUInt16 low := by
  have hhigh := high.toNat_lt
  have hlow := low.toNat_lt
  have hfirst : (toUInt32 high low / 65536).toUInt16 = high := by
    apply UInt16.toNat_inj.1
    simp only [toUInt32, UInt32.toNat_add, UInt32.toNat_mul, UInt16.toNat_toUInt32,
      UInt32.toNat_toUInt16, UInt32.toNat_div, UInt32.reduceToNat]
    omega
  have hsecond : (toUInt32 high low).toUInt16 = low := by
    apply UInt16.toNat_inj.1
    simp only [toUInt32, UInt32.toNat_add, UInt32.toNat_mul, UInt16.toNat_toUInt32,
      UInt32.toNat_toUInt16, UInt32.reduceToNat]
    omega
  rw [ofUInt32, hfirst, hsecond]

/-- The bytes of the number that two halves make up are those of the halves. -/
theorem ofUInt64_toUInt64 (high low : UInt32) :
    ofUInt64 (toUInt64 high low) = ofUInt32 high ++ ofUInt32 low := by
  have hhigh := high.toNat_lt
  have hlow := low.toNat_lt
  have hfirst : (toUInt64 high low / 4294967296).toUInt32 = high := by
    apply UInt32.toNat_inj.1
    simp only [toUInt64, UInt64.toNat_add, UInt64.toNat_mul, UInt32.toNat_toUInt64,
      UInt64.toNat_toUInt32, UInt64.toNat_div, UInt64.reduceToNat]
    omega
  have hsecond : (toUInt64 high low).toUInt32 = low := by
    apply UInt32.toNat_inj.1
    simp only [toUInt64, UInt64.toNat_add, UInt64.toNat_mul, UInt32.toNat_toUInt64,
      UInt64.toNat_toUInt32, UInt64.reduceToNat]
    omega
  rw [ofUInt64, hfirst, hsecond]

end Bytes

namespace Reader

variable {ε α β : Type}

/-! ## What is taken from the front -/

/-- Whatever the reader answers, the bytes that it has taken for the answer have the property
together with it. -/
def Consumes (r : Reader ε α) (p : Bytes → α → Prop) : Prop :=
  ∀ input a rest, r input = .ok (a, rest) → ∃ s, input = s ++ rest ∧ p s a

namespace Consumes

theorem mono {r : Reader ε α} {p q : Bytes → α → Prop} (h : Consumes r p)
    (hpq : ∀ s a, p s a → q s a) : Consumes r q := by
  intro input a rest hr
  obtain ⟨s, hs, hp⟩ := h input a rest hr
  exact ⟨s, hs, hpq s a hp⟩

theorem pure {a : α} {p : Bytes → α → Prop} (h : p [] a) :
    Consumes (Pure.pure a : Reader ε α) p := by
  intro input b rest hr
  cases hr
  exact ⟨[], rfl, h⟩

theorem throw {e : ε} {p : Bytes → α → Prop} :
    Consumes (MonadExcept.throw e : Reader ε α) p := by
  intro input b rest hr
  cases hr

/-- What the second reader takes comes behind what the first one takes. -/
theorem bind {x : Reader ε α} {f : α → Reader ε β} {p : Bytes → α → Prop} {q : Bytes → β → Prop}
    (hx : Consumes x p) (hf : ∀ s a, p s a → Consumes (f a) fun t b => q (s ++ t) b) :
    Consumes (x >>= f) q := by
  intro input b rest h
  obtain ⟨a, middle, hfirst, hsecond⟩ := of_bind_ok h
  obtain ⟨s, rfl, hp⟩ := hx input a middle hfirst
  obtain ⟨t, rfl, hq⟩ := hf s a hp middle b rest hsecond
  exact ⟨s ++ t, (List.append_assoc s t rest).symm, hq⟩

/-- What is decided without input consumes nothing. -/
theorem lift {e : Except ε α} {p : Bytes → α → Prop} (h : ∀ a, e = .ok a → p [] a) :
    Consumes (liftM e : Reader ε α) p := by
  intro input a rest hr
  cases e with
  | error e => cases hr
  | ok b =>
    cases hr
    exact ⟨[], rfl, h _ rfl⟩

theorem u8 (short : ε) : Consumes (Reader.u8 short) fun s b => s = [b] := by
  intro input a rest h
  match input, h with
  | b :: tail, h =>
    cases h
    exact ⟨[a], rfl, rfl⟩

theorem u16 (short : ε) : Consumes (Reader.u16 short) fun s n => s = Bytes.ofUInt16 n := by
  intro input n rest h
  match input, h with
  | a :: b :: tail, h =>
    cases h
    exact ⟨[a, b], rfl, (Bytes.ofUInt16_toUInt16 a b).symm⟩

theorem u32 (short : ε) : Consumes (Reader.u32 short) fun s n => s = Bytes.ofUInt32 n := by
  refine (u16 short).bind fun s high hs => (u16 short).bind fun t low ht => pure ?_
  rw [hs, ht, List.append_nil, Bytes.ofUInt32_toUInt32]

theorem u64 (short : ε) : Consumes (Reader.u64 short) fun s n => s = Bytes.ofUInt64 n := by
  refine (u32 short).bind fun s high hs => (u32 short).bind fun t low ht => pure ?_
  rw [hs, ht, List.append_nil, Bytes.ofUInt64_toUInt64]

theorem block (short : ε) (n : Nat) :
    Consumes (Reader.block short n) fun s taken => s = taken ∧ taken.length = n := by
  intro input taken rest h
  simp only [Reader.block] at h
  split at h
  · next hlength =>
    cases h
    exact ⟨input.take n, (List.take_append_drop n input).symm, rfl, hlength⟩
  · cases h

/-- Items in a row take their bytes in a row. -/
theorem times {item : Reader ε α} {p : Bytes → α → Prop} (h : Consumes item p) (n : Nat) :
    Consumes (Reader.times n item) fun s as =>
      as.length = n ∧ ∃ ss, List.Forall₂ p ss as ∧ s = ss.flatten := by
  induction n with
  | zero => exact pure ⟨rfl, [], .nil, rfl⟩
  | succ n ih =>
    rw [times_succ]
    refine h.bind fun s a hs => ih.bind fun t as hall => pure ?_
    obtain ⟨hlength, ss, hss, rfl⟩ := hall
    exact ⟨by rw [List.length_cons, hlength], s :: ss, .cons hs hss, by simp⟩

/-- If the bytes taken for every item are those of something that stands for it, then a counted list
takes its length and the bytes of what stands for its items. -/
theorem counted {γ : Type} {short : ε} {item : Reader ε α} {stands : γ → α → Prop}
    {write : γ → Bytes} (h : Consumes item fun s a => ∃ c, stands c a ∧ write c = s) :
    Consumes (Reader.counted short item) fun s as =>
      as.length < 65536 ∧ ∃ cs, List.Forall₂ stands cs as ∧ Bytes.counted write cs = s := by
  refine (u16 short).bind fun s n hs => (times h n.toNat).mono fun t as hall => ?_
  obtain ⟨hlength, ss, hss, rfl⟩ := hall
  have hexists : ∃ cs, List.Forall₂ stands cs as ∧ cs.map write = ss := by
    clear hlength
    induction hss with
    | nil => exact ⟨[], .nil, rfl⟩
    | cons hfirst _ ih =>
      obtain ⟨c, hc, rfl⟩ := hfirst
      obtain ⟨cs, hcs, rfl⟩ := ih
      exact ⟨c :: cs, .cons hc hcs, rfl⟩
  obtain ⟨cs, hcs, rfl⟩ := hexists
  refine ⟨hlength ▸ n.toNat_lt, cs, hcs, ?_⟩
  rw [hs, Bytes.counted, Bytes.count, hcs.length_eq, hlength, UInt16.ofNat_toNat,
    List.flatMap_def]

end Consumes

/-! ## Running out -/

/-- The reader takes exactly the given bytes for `a`, whatever comes behind them, and runs out on
every part of them that lacks their end. -/
structure Exactly (short : ε) (r : Reader ε α) (s : Bytes) (a : α) : Prop where
  reads : Reads r s a
  runsOut : ∀ t u, s = t ++ u → u ≠ [] → r t = .error short

/-- Wherever the reader succeeds, it has taken exactly the bytes it needs. -/
def Determined (short : ε) (r : Reader ε α) : Prop :=
  Consumes r (Exactly short r)

variable {short : ε}

/-- Two readers in a row run out if the first does, or if the second does behind it. -/
theorem Exactly.bind {x : Reader ε α} {f : α → Reader ε β} {s t : Bytes} {a : α} {b : β}
    (hx : Exactly short x s a) (hf : Exactly short (f a) t b) :
    Exactly short (x >>= f) (s ++ t) b := by
  refine ⟨hx.reads.bind hf.reads, fun front back hsplit hback => ?_⟩
  rcases List.append_eq_append_iff.1 hsplit with ⟨more, rfl, ht⟩ | ⟨missing, hs, -⟩
  · rw [bind_ok (hx.reads more)]
    exact hf.runsOut more back ht hback
  · by_cases hmissing : missing = []
    · -- The first reader has all it needs, and nothing is left for the second one.
      rw [hmissing, List.append_nil] at hs
      subst hs
      have hnothing := hx.reads []
      rw [List.append_nil] at hnothing
      rw [bind_ok hnothing]
      refine hf.runsOut [] t rfl fun hempty => hback ?_
      rw [hempty, List.append_nil] at hsplit
      exact List.self_eq_append_right.1 hsplit
    · exact bind_error (hx.runsOut front missing hs hmissing)

namespace Determined

theorem pure (a : α) : Determined short (Pure.pure a : Reader ε α) := by
  refine Consumes.pure ⟨Reads.pure a, fun t u hsplit hu => absurd ?_ hu⟩
  exact (List.append_eq_nil_iff.1 hsplit.symm).2

theorem throw (e : ε) : Determined short (MonadExcept.throw e : Reader ε α) :=
  Consumes.throw

/-- Readers that are determined may follow each other. -/
theorem bind {x : Reader ε α} {f : α → Reader ε β} (hx : Determined short x)
    (hf : ∀ a, Determined short (f a)) : Determined short (x >>= f) :=
  Consumes.bind hx fun _ a hs => (hf a).mono fun _ _ ht => hs.bind ht

/-- What is made of a value is determined if the value is. -/
theorem bind_pure {x : Reader ε α} (hx : Determined short x) (f : α → β) :
    Determined short (x >>= fun a => Pure.pure (f a)) :=
  hx.bind fun a => pure (f a)

/-- What is looked up takes no bytes. -/
theorem lift (e : Except ε α) : Determined short (liftM e : Reader ε α) := by
  refine Consumes.lift fun a ha => ⟨Reads.lift ha, fun t u hsplit hu => absurd ?_ hu⟩
  exact (List.append_eq_nil_iff.1 hsplit.symm).2

theorem u8 (short : ε) : Determined short (Reader.u8 short) := by
  refine (Consumes.u8 short).mono fun s b hs => ?_
  subst hs
  refine ⟨Reads.u8 short b, fun t u hsplit hu => ?_⟩
  match t, hsplit with
  | [], _ => rfl
  | _ :: t, hsplit =>
    have hnil := (List.cons.inj hsplit).2
    exact absurd (List.append_eq_nil_iff.1 hnil.symm).2 hu

theorem u16 (short : ε) : Determined short (Reader.u16 short) := by
  refine (Consumes.u16 short).mono fun s n hs => ?_
  subst hs
  refine ⟨Reads.u16 short n, fun t u hsplit hu => ?_⟩
  have hlength := congrArg List.length hsplit
  rw [Bytes.length_ofUInt16, List.length_append] at hlength
  have hpos := List.length_pos_iff.2 hu
  match t, hlength with
  | [], _ => rfl
  | [_], _ => rfl
  | _ :: _ :: _, hlength =>
    simp only [List.length_cons] at hlength
    omega

theorem u32 (short : ε) : Determined short (Reader.u32 short) :=
  (u16 short).bind fun _ => (u16 short).bind_pure _

theorem u64 (short : ε) : Determined short (Reader.u64 short) :=
  (u32 short).bind fun _ => (u32 short).bind_pure _

theorem block (short : ε) (n : Nat) : Determined short (Reader.block short n) := by
  refine (Consumes.block short n).mono fun s taken hs => ?_
  obtain ⟨rfl, hlength⟩ := hs
  refine ⟨Reads.block short s hlength.symm, fun t u hsplit hu => ?_⟩
  have hless : t.length < n := by
    rw [← hlength, hsplit, List.length_append]
    exact Nat.lt_add_of_pos_right (List.length_pos_iff.2 hu)
  simp only [Reader.block]
  rw [if_neg]
  rw [List.length_take]
  omega

theorem times {item : Reader ε α} (h : Determined short item) (n : Nat) :
    Determined short (Reader.times n item) := by
  induction n with
  | zero => exact pure []
  | succ n ih =>
    rw [times_succ]
    exact h.bind fun _ => ih.bind_pure _

theorem counted {item : Reader ε α} (h : Determined short item) :
    Determined short (Reader.counted short item) :=
  (u16 short).bind fun n => h.times n.toNat

variable {r : Reader ε α} {input : Bytes} {a : α}

/-- Bytes behind a whole input are left, and where its end is missing the reader runs out. -/
theorem run_of_uneven {input' : Bytes} (h : Determined short r) (hread : r input = .ok (a, []))
    (huneven : Uneven input input') :
    r input' =
      if input.length < input'.length then .ok (a, input'.drop input.length) else .error short := by
  obtain ⟨s, hs, hexactly⟩ := h input a [] hread
  rw [List.append_nil] at hs
  subst hs
  obtain ⟨hne, ⟨more, rfl⟩ | ⟨more, rfl⟩⟩ := huneven
  · have hmore : more ≠ [] := fun hempty => hne (by rw [hempty, List.append_nil])
    have hpos := List.length_pos_iff.2 hmore
    rw [hexactly.reads more, List.length_append, if_pos (by omega), List.drop_left]
  · have hmore : more ≠ [] := fun hempty => hne (by rw [hempty, List.append_nil])
    rw [hexactly.runsOut input' more rfl hmore, List.length_append, if_neg (by omega)]

end Determined

end Reader

/-! ## Whole bodies -/

namespace Scope

open Reader (Determined)

/-- The fault of a body that differs from an accepted one only in where it ends. -/
def misfit (s : Scope) (info info' : Bytes) : Malformed :=
  if info.length < info'.length then .trailingAttributeBytes s.name (info'.length - info.length)
  else s.short

/-- A body that is cut short or goes on behind its end is not read as anything. -/
theorem whole_of_uneven {α : Type} {s : Scope} {body : Reader Malformed α} {info info' : Bytes}
    {a : α} (hbody : Determined s.short body) (h : s.whole body info = .ok a)
    (huneven : Uneven info info') : s.whole body info' = .error (s.misfit info info') := by
  have hrun : s.whole body info' = (body info').bind fun next =>
      if next.2.isEmpty then .ok next.1
      else .error (.trailingAttributeBytes s.name next.2.length) := rfl
  rw [hrun, hbody.run_of_uneven (whole_eq_ok_iff.1 h) huneven, misfit]
  split
  · next hlonger =>
    have hleft : (info'.drop info.length).isEmpty = false := by
      rw [List.isEmpty_eq_false_iff, Ne, List.drop_eq_nil_iff]
      omega
    simp [Except.bind, hleft]
  · rfl

end Scope

end Crosswalk
