import Mathlib.Algebra.GroupWithZero.Nat
import Mathlib.Algebra.Order.BigOperators.Group.List
import Mathlib.Algebra.Order.Group.Nat
import Crosswalk.Proofs.Outcome
import Crosswalk.Reader

/-!
# What readers take from the front

Two ways to speak about a reader. `Reads r s a` says that `r` takes exactly the bytes `s` for the
value `a`, whatever comes behind them; this is what a round trip needs. `Yields r p` goes the other
way: whatever `r` answers has the property `p`, which may also speak about how many bytes were
taken. Each has one lemma for every way in which readers are put together, so that a fact about a
composed reader is composed of the facts about its parts.
-/

namespace Crosswalk.Reader

variable {ε α β : Type}

/-! ## Taking exactly what was written -/

/-- The reader takes exactly the given bytes for `a`, whatever comes behind them. -/
def Reads (r : Reader ε α) (s : Bytes) (a : α) : Prop :=
  ∀ rest, r (s ++ rest) = .ok (a, rest)

namespace Reads

theorem pure (a : α) : Reads (Pure.pure a : Reader ε α) [] a := by
  intro rest
  rfl

/-- One reader after the other takes the bytes of both. -/
theorem bind {x : Reader ε α} {f : α → Reader ε β} {s t : Bytes} {a : α} {b : β}
    (hx : Reads x s a) (hf : Reads (f a) t b) : Reads (x >>= f) (s ++ t) b := by
  intro rest
  rw [List.append_assoc, bind_ok (hx (t ++ rest))]
  exact hf rest

/-- What comes at the end may take no bytes. -/
theorem bind_nil {x : Reader ε α} {f : α → Reader ε β} {s : Bytes} {a : α} {b : β}
    (hx : Reads x s a) (hf : Reads (f a) [] b) : Reads (x >>= f) s b := by
  have h := hx.bind hf
  rwa [List.append_nil] at h

/-- What is made of a value is read from the bytes of the value. -/
theorem bind_pure {x : Reader ε α} {f : α → β} {s : Bytes} {a : α} (hx : Reads x s a) :
    Reads (x >>= fun a => Pure.pure (f a)) s (f a) :=
  hx.bind_nil (pure (f a))

/-- An answer that is looked up takes no bytes. -/
theorem lift {e : Except ε α} {a : α} (h : e = .ok a) :
    Reads (liftM e : Reader ε α) [] a := by
  intro rest
  rw [h]
  rfl

/-- A value that is looked up by what was read takes no further bytes. -/
theorem bind_lift {x : Reader ε α} {f : α → Except ε β} {s : Bytes} {a : α} {b : β}
    (hx : Reads x s a) (hf : f a = .ok b) : Reads (x >>= fun a => (liftM (f a) : Reader ε β)) s b :=
  hx.bind_nil (lift hf)

theorem u8 (short : ε) (b : UInt8) : Reads (Reader.u8 short) [b] b :=
  fun _ => rfl

theorem u16 (short : ε) (n : UInt16) : Reads (Reader.u16 short) (Bytes.ofUInt16 n) n :=
  u16_append short n

theorem u32 (short : ε) (n : UInt32) : Reads (Reader.u32 short) (Bytes.ofUInt32 n) n :=
  u32_append short n

theorem u64 (short : ε) (n : UInt64) : Reads (Reader.u64 short) (Bytes.ofUInt64 n) n :=
  u64_append short n

theorem block (short : ε) {n : Nat} (s : Bytes) (h : n = s.length) :
    Reads (Reader.block short n) s s := by
  intro rest
  rw [h, block_append]

/-- Items in a row take their bytes in a row. -/
theorem times {item : Reader ε α} {as : List α} {ss : List Bytes}
    (h : List.Forall₂ (fun a s => Reads item s a) as ss) :
    Reads (Reader.times as.length item) ss.flatten as := by
  induction h with
  | nil => exact fun rest => rfl
  | cons hfirst _ ih =>
    rw [List.length_cons, times_succ, List.flatten_cons]
    exact hfirst.bind ih.bind_pure

/-- A list is read back behind its length, if sixteen bits hold the length. -/
theorem counted {short : ε} {item : Reader ε α} {as : List α} {ss : List Bytes}
    (hlength : as.length < 65536) (h : List.Forall₂ (fun a s => Reads item s a) as ss) :
    Reads (Reader.counted short item) (Bytes.count as.length ++ ss.flatten) as := by
  have hcount : (UInt16.ofNat as.length).toNat = as.length :=
    UInt16.toNat_ofNat_of_lt' hlength
  refine (u16 short (UInt16.ofNat as.length)).bind ?_
  rw [hcount]
  exact times h

/-- A list whose items are written one by one is read back behind its length. -/
theorem counted_flatMap {short : ε} {item : Reader ε α} {as : List α} {write : α → Bytes}
    (hlength : as.length < 65536) (h : ∀ a ∈ as, Reads item (write a) a) :
    Reads (Reader.counted short item) (Bytes.counted write as) as := by
  rw [Bytes.counted, List.flatMap_def]
  refine counted hlength ?_
  rw [List.forall₂_map_right_iff, List.forall₂_same]
  exact h

end Reads

/-! ## Failing alike -/

/-- The reader takes exactly the given bytes, whatever comes behind them, and answers or fails as
`e` says. -/
def Takes (r : Reader ε α) (s : Bytes) (e : Except ε α) : Prop :=
  ∀ rest, r (s ++ rest) = e.map fun a => (a, rest)

/-- What is read back takes just its bytes. -/
theorem Reads.takes {r : Reader ε α} {s : Bytes} {a : α} (h : Reads r s a) : Takes r s (.ok a) :=
  h

/-- What is looked up by what was read may fail. -/
theorem Reads.takes_lift {x : Reader ε α} {s : Bytes} {a : α} (hx : Reads x s a)
    (f : α → Except ε β) : Takes (x >>= fun a => (liftM (f a) : Reader ε β)) s (f a) := by
  intro rest
  rw [bind_ok (hx rest)]
  cases f a <;> rfl

/-- Behind what is read, the next reader may fail. -/
theorem Reads.takes_bind {x : Reader ε α} {f : α → Reader ε β} {s t : Bytes} {a : α}
    {e : Except ε β} (hx : Reads x s a) (hf : Takes (f a) t e) : Takes (x >>= f) (s ++ t) e := by
  intro rest
  rw [List.append_assoc, bind_ok (hx (t ++ rest))]
  exact hf rest

/-- What is made of a value takes the bytes of the value. -/
theorem Takes.bind_pure {x : Reader ε α} {s : Bytes} {e : Except ε α} (hx : Takes x s e)
    (f : α → β) : Takes (x >>= fun a => Pure.pure (f a)) s (e.map f) := by
  intro rest
  cases e with
  | error e => exact bind_error (hx rest)
  | ok a => exact bind_ok (hx rest)

/-- Items in a row fail as the first one of them does. -/
theorem Takes.times {item : Reader ε α} {es : List (Except ε α)} {ss : List Bytes}
    (h : List.Forall₂ (fun e s => Takes item s e) es ss) :
    Takes (Reader.times es.length item) ss.flatten (es.mapM id) := by
  induction h with
  | nil => exact fun rest => rfl
  | @cons e s es ss hfirst _ ih =>
    intro rest
    rw [List.length_cons, times_succ, List.flatten_cons, List.append_assoc, List.mapM_cons]
    have hhead := hfirst (ss.flatten ++ rest)
    cases e with
    | error e => exact bind_error hhead
    | ok a =>
      rw [bind_ok hhead]
      exact (ih.bind_pure (a :: ·)) rest

/-- A counted list fails as the first one of its items does. -/
theorem Takes.counted {short : ε} {item : Reader ε α} {es : List (Except ε α)} {ss : List Bytes}
    (hlength : es.length < 65536) (h : List.Forall₂ (fun e s => Takes item s e) es ss) :
    Takes (Reader.counted short item) (Bytes.count es.length ++ ss.flatten) (es.mapM id) := by
  have hcount : (UInt16.ofNat es.length).toNat = es.length :=
    UInt16.toNat_ofNat_of_lt' hlength
  refine (Reads.u16 short (UInt16.ofNat es.length)).takes_bind ?_
  rw [hcount]
  exact times h

/-! ## What is read -/

/-- Whatever the reader answers has the property, which is told how many bytes were taken. -/
def Yields (r : Reader ε α) (p : α → Nat → Prop) : Prop :=
  ∀ input a rest, r input = .ok (a, rest) →
    rest.length ≤ input.length ∧ p a (input.length - rest.length)

/-- Apart from what it reads, a reader that succeeds behind another has succeeded twice. -/
theorem of_bind_ok {x : Reader ε α} {f : α → Reader ε β} {input rest : Bytes} {b : β}
    (h : (x >>= f) input = .ok (b, rest)) :
    ∃ a middle, x input = .ok (a, middle) ∧ f a middle = .ok (b, rest) :=
  of_stateT_bind_eq_ok h

namespace Yields

theorem mono {r : Reader ε α} {p q : α → Nat → Prop} (h : Yields r p)
    (hpq : ∀ a n, p a n → q a n) : Yields r q := by
  intro input a rest hr
  obtain ⟨hle, hp⟩ := h input a rest hr
  exact ⟨hle, hpq a _ hp⟩

theorem pure {a : α} {p : α → Nat → Prop} (h : p a 0) :
    Yields (Pure.pure a : Reader ε α) p := by
  intro input b rest hr
  cases hr
  rw [Nat.sub_self]
  exact ⟨Nat.le_refl _, h⟩

theorem throw {e : ε} {p : α → Nat → Prop} :
    Yields (MonadExcept.throw e : Reader ε α) p := by
  intro input b rest hr
  cases hr

/-- The second reader is known to follow a value with the property of the first one. -/
theorem bind {x : Reader ε α} {f : α → Reader ε β} {p : α → Nat → Prop} {q : β → Nat → Prop}
    (hx : Yields x p) (hf : ∀ a n, p a n → Yields (f a) fun b k => q b (n + k)) :
    Yields (x >>= f) q := by
  intro input b rest h
  obtain ⟨a, middle, hfirst, hsecond⟩ := of_bind_ok h
  obtain ⟨hle, hp⟩ := hx input a middle hfirst
  obtain ⟨hle', hq⟩ := hf a _ hp middle b rest hsecond
  refine ⟨Nat.le_trans hle' hle, ?_⟩
  have hsum : input.length - rest.length
      = input.length - middle.length + (middle.length - rest.length) := by omega
  rwa [hsum]

/-- What is decided without input reads nothing. -/
theorem lift {e : Except ε α} {p : α → Nat → Prop} (h : ∀ a, e = .ok a → p a 0) :
    Yields (liftM e : Reader ε α) p := by
  intro input a rest hr
  cases e with
  | error e => cases hr
  | ok b =>
    cases hr
    rw [Nat.sub_self]
    exact ⟨Nat.le_refl _, h _ rfl⟩

theorem u8 (short : ε) : Yields (Reader.u8 short) fun _ n => n = 1 := by
  intro input a rest h
  match input, h with
  | b :: tail, h =>
    cases h
    simp

theorem u16 (short : ε) : Yields (Reader.u16 short) fun _ n => n = 2 := by
  intro input a rest h
  match input, h with
  | b :: c :: tail, h =>
    cases h
    simp
    omega

theorem u32 (short : ε) : Yields (Reader.u32 short) fun _ n => n = 4 := by
  refine (u16 short).bind fun _ n hn => (u16 short).bind fun _ k hk => pure ?_
  omega

theorem block (short : ε) (n : Nat) :
    Yields (Reader.block short n) fun s k => s.length = n ∧ k = n := by
  intro input a rest h
  simp only [Reader.block] at h
  split at h
  · next htaken =>
    cases h
    rw [List.length_take] at htaken
    refine ⟨?_, ?_, ?_⟩
    · simp
    · simp [htaken]
    · rw [List.length_drop]
      omega
  · cases h

/-- What holds of every item and adds up along a list holds of items in a row. -/
theorem times {item : Reader ε α} {p : α → Nat → Prop} (h : Yields item p) (n : Nat) :
    Yields (Reader.times n item) fun as k =>
      as.length = n ∧ ∃ ks, List.Forall₂ p as ks ∧ ks.sum = k := by
  induction n with
  | zero =>
    intro input as rest hr
    cases hr
    rw [Nat.sub_self]
    exact ⟨Nat.le_refl _, rfl, [], .nil, rfl⟩
  | succ n ih =>
    rw [times_succ]
    refine h.bind fun a k ha => ih.bind fun as j has => pure ?_
    obtain ⟨hlength, ks, hks, hsum⟩ := has
    refine ⟨by rw [List.length_cons, hlength], k :: ks, .cons ha hks, ?_⟩
    rw [List.sum_cons, hsum]
    omega

/-- A counted list has fewer than 65536 items, and takes two bytes besides them. -/
theorem counted {short : ε} {item : Reader ε α} {p : α → Nat → Prop} (h : Yields item p) :
    Yields (Reader.counted short item) fun as k =>
      as.length < 65536 ∧ ∃ ks, List.Forall₂ p as ks ∧ k = 2 + ks.sum := by
  refine (u16 short).bind fun n k hk => (times h n.toNat).mono fun as j hj => ?_
  obtain ⟨hlength, ks, hks, hsum⟩ := hj
  refine ⟨?_, ks, hks, by omega⟩
  rw [hlength]
  exact n.toNat_lt

/-- What holds of every item, whatever it takes, holds of all items of a counted list. -/
theorem counted_forall {short : ε} {item : Reader ε α} {p : α → Prop}
    (h : Yields item fun a _ => p a) :
    Yields (Reader.counted short item) fun as _ => as.length < 65536 ∧ ∀ a ∈ as, p a := by
  refine h.counted.mono fun as k has => ?_
  obtain ⟨hlength, ks, hks, -⟩ := has
  exact ⟨hlength, ((List.forall₂_and_left as ks).1 (hks.imp fun _ _ ha => ⟨ha, ha⟩)).1⟩

/-- What items have of the bytes they take adds up along a counted list. -/
theorem counted_le {short : ε} {item : Reader ε α} {p : α → Prop} {size : α → Nat}
    (h : Yields item fun a n => p a ∧ size a ≤ n) :
    Yields (Reader.counted short item) fun as k =>
      as.length < 65536 ∧ (∀ a ∈ as, p a) ∧ (as.map size).sum ≤ k := by
  refine h.counted.mono fun as k has => ?_
  obtain ⟨hlength, ks, hks, hk⟩ := has
  have hall := (List.forall₂_and_left as ks).1 (hks.imp fun _ _ ha => ⟨ha.1, ha.2⟩)
  have hsum : (as.map size).sum ≤ ks.sum := (List.forall₂_map_left_iff.2 hall.2).sum_le_sum
  exact ⟨hlength, hall.1, by omega⟩

end Yields

end Crosswalk.Reader
