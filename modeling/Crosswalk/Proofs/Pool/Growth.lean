import Mathlib.Data.Finset.Card
import Crosswalk.Proofs.Pool.Canonical

/-!
# How much a pool grows

A need is met part by part: a class by the text of its name and a constant that points at it, a pair
by two texts and a constant. A part that the pool has not got takes one slot, and from then on it is
there. So a writer takes as many slots as there are different parts missing among all it asks for,
and it fails exactly if there is no room for so many (`Asks.counts`).

None of this looks at the constants. All that counts is that the tables have no two texts in one
slot, and no class and no pair without its texts (`Rooted`). While entries still wait for their
constants, what they will be able to answer is promised: it need not be known, and yet no slot is
taken for it.
-/

namespace Crosswalk

/-- The constant has no room where it should have gone. -/
def Overflow.Proper (o : Overflow) : Prop :=
  PoolBuilder.slotLimit < o.offset + o.constant.width

namespace PoolBuilder

variable {α β : Type} {b b' b'' : PoolBuilder} {c : Constant} {n : Need} {o : Overflow}
  {promised : Need → Prop} {needs more : List Need}

/-! ## What is known -/

/-- The needs that are met one after the other for an answer, the last of which is the answer. -/
def Need.parts : Need → List Need
  | text s => [.text s]
  | className name => [.text name, .className name]
  | pair name descriptor => [.text name, .text descriptor, .pair name descriptor]

/-- The parts of a need are what its entry points at, and the need itself. -/
theorem Need.mem_parts {m : Need} : m ∈ n.parts ↔ m ∈ n.entry.needs ∨ m = n := by
  cases n <;> simp [parts, entry, Entry.needs, or_assoc]

/-- If two steps together add nothing, neither of them does. -/
theorem of_bind_rests {x : Build α} {f : α → Build β} {d : β} (hx : Replays x)
    (hf : ∀ a, Replays (f a)) (h : (x >>= f) b = .ok (d, b)) :
    ∃ a, x b = .ok (a, b) ∧ f a b = .ok (d, b) := by
  obtain ⟨a, middle, hfirst, hsecond⟩ := of_bind_ok h
  -- In the end the tables are those of the beginning, so the first step had all it looks up.
  have hagain := (hx b a middle hfirst).2 b (hf a middle d b hsecond).1
  cases hfirst.symm.trans hagain
  exact ⟨a, hfirst, hsecond⟩

/-- A text rests where it is known. -/
theorem text_rests_iff {s : String} {i : Index} :
    text s b = .ok (i, b) ↔ b.slot? (.utf8 s) = some i :=
  ⟨slot?_of_rests (c := .utf8 s) trivial, intern_of_slot? (c := .utf8 s)⟩

/-- A class is spelled without a new constant if its name is known. -/
theorem spell_className_iff {name : String} :
    spell (.className name) b = .ok (c, b) ↔
      ∃ i, b.slot? (.utf8 name) = some i ∧ c = .className i := by
  constructor
  · intro h
    obtain ⟨i, hi, hc⟩ := of_bind_rests (asks_text name).replays (fun _ => .pure _) h
    cases hc
    exact ⟨i, text_rests_iff.1 hi, rfl⟩
  · rintro ⟨i, hi, rfl⟩
    exact bind_of_ok (text_rests_iff.2 hi)

/-- A pair is spelled without a new constant if its texts are known. -/
theorem spell_nameAndType_iff {name descriptor : String} :
    spell (.nameAndType name descriptor) b = .ok (c, b) ↔
      ∃ i j, b.slot? (.utf8 name) = some i ∧ b.slot? (.utf8 descriptor) = some j ∧
        c = .nameAndType i j := by
  constructor
  · intro h
    obtain ⟨i, hi, h⟩ := of_bind_rests (asks_text name).replays
      (fun _ => (asks_text descriptor).replays.bind fun _ => .pure _) h
    obtain ⟨j, hj, hc⟩ := of_bind_rests (asks_text descriptor).replays (fun _ => .pure _) h
    cases hc
    exact ⟨i, j, text_rests_iff.1 hi, text_rests_iff.1 hj, rfl⟩
  · rintro ⟨i, j, hi, hj, rfl⟩
    exact (bind_of_ok (text_rests_iff.2 hi)).trans (bind_of_ok (text_rests_iff.2 hj))

/-- What can be asked for is spelled as something that the tables can have. -/
theorem Need.isShared_of_spell (h : spell n.entry b = .ok (c, b')) : c.IsShared := by
  cases n with
  | text s =>
    cases h
    exact trivial
  | className name =>
    obtain ⟨i, middle, -, h⟩ := of_bind_ok h
    cases h
    exact trivial
  | pair name descriptor =>
    obtain ⟨i, middle, -, h⟩ := of_bind_ok h
    obtain ⟨j, last, -, h⟩ := of_bind_ok h
    cases h
    exact trivial

/-- Something is known if it can be spelled and there is a slot for what it is spelled with. -/
theorem knows_iff : b.Knows n ↔ ∃ c i, spell n.entry b = .ok (c, b) ∧ b.slot? c = some i := by
  cases n with
  | text s =>
    constructor
    · rintro ⟨i, hi⟩
      exact ⟨.utf8 s, i, rfl, text_rests_iff.1 hi⟩
    · rintro ⟨c, i, hspell, hi⟩
      cases hspell
      exact ⟨i, text_rests_iff.2 hi⟩
  | className name =>
    constructor
    · rintro ⟨j, hask⟩
      obtain ⟨i, hi, hj⟩ := of_bind_rests (asks_text name).replays
        (fun i => Replays.intern (c := .className i) trivial) hask
      exact ⟨.className i, j, bind_of_ok hi, slot?_of_rests trivial hj⟩
    · rintro ⟨c, j, hspell, hj⟩
      obtain ⟨i, hi, rfl⟩ := spell_className_iff.1 hspell
      exact ⟨j, (bind_of_ok (text_rests_iff.2 hi)).trans (intern_of_slot? hj)⟩
  | pair name descriptor =>
    constructor
    · rintro ⟨k, hask⟩
      obtain ⟨i, hi, hask⟩ := of_bind_rests (asks_text name).replays
        (fun i => (asks_text descriptor).replays.bind fun j =>
          Replays.intern (c := .nameAndType i j) trivial) hask
      obtain ⟨j, hj, hk⟩ := of_bind_rests (asks_text descriptor).replays
        (fun j => Replays.intern (c := .nameAndType i j) trivial) hask
      exact ⟨.nameAndType i j, k, (bind_of_ok hi).trans (bind_of_ok hj),
        slot?_of_rests trivial hk⟩
    · rintro ⟨c, k, hspell, hk⟩
      obtain ⟨i, j, hi, hj, rfl⟩ := spell_nameAndType_iff.1 hspell
      refine ⟨k, (bind_of_ok (text_rests_iff.2 hi)).trans ?_⟩
      exact (bind_of_ok (text_rests_iff.2 hj)).trans (intern_of_slot? hk)

/-! ## Tables with roots -/

/-- There is room behind every text, no two texts share a slot, and whatever is in the tables is
spelled with texts that are there too. -/
structure Rooted (b : PoolBuilder) : Prop where
  limit : b.constants.next ≤ slotLimit
  before : ∀ s i, b.slot? (.utf8 s) = some i → i.toNat < b.constants.next
  distinct : ∀ s t i, b.slot? (.utf8 s) = some i → b.slot? (.utf8 t) = some i → s = t
  spelled : ∀ c i, b.slot? c = some i → ∃ n : Need, spell n.entry b = .ok (c, b)

/-- A constant tells what it is spelled for. -/
theorem Rooted.unique (hb : b.Rooted) {m : Need} (hn : spell n.entry b = .ok (c, b))
    (hm : spell m.entry b = .ok (c, b)) : n = m := by
  -- The kind of the constant tells the kind of what is asked for, and its slots tell the texts.
  cases n with
  | text s =>
    cases hn
    cases m with
    | text t =>
      cases hm
      rfl
    | className name =>
      obtain ⟨i, -, hc⟩ := spell_className_iff.1 hm
      cases hc
    | pair name descriptor =>
      obtain ⟨i, j, -, -, hc⟩ := spell_nameAndType_iff.1 hm
      cases hc
  | className name =>
    obtain ⟨i, hi, rfl⟩ := spell_className_iff.1 hn
    cases m with
    | text t => cases hm
    | className other =>
      obtain ⟨j, hj, hc⟩ := spell_className_iff.1 hm
      cases hc
      rw [hb.distinct name other i hi hj]
    | pair name descriptor =>
      obtain ⟨j, k, -, -, hc⟩ := spell_nameAndType_iff.1 hm
      cases hc
  | pair name descriptor =>
    obtain ⟨i, j, hi, hj, rfl⟩ := spell_nameAndType_iff.1 hn
    cases m with
    | text t => cases hm
    | className other =>
      obtain ⟨k, -, hc⟩ := spell_className_iff.1 hm
      cases hc
    | pair name' descriptor' =>
      obtain ⟨k, l, hk, hl, hc⟩ := spell_nameAndType_iff.1 hm
      cases hc
      rw [hb.distinct name name' i hi hk, hb.distinct descriptor descriptor' j hj hl]

/-- Tables that are told of a constant know what it is spelled for, and nothing else is new. -/
theorem Rooted.tells (hb : b.Rooted) {slot : Index} (h : Tells c slot b b')
    (hspell : spell n.entry b = .ok (c, b)) (hnext : b.constants.next ≤ b'.constants.next)
    (hlimit : b'.constants.next ≤ slotLimit)
    (hnew : ∀ s, c = .utf8 s → slot.toNat = b.constants.next ∧ slot.toNat < b'.constants.next) :
    b'.Rooted ∧ ∀ m, b'.Knows m ↔ b.Knows m ∨ m = n := by
  have hagain : ∀ {d : Constant} {m : Need}, spell m.entry b = .ok (d, b) →
      spell m.entry b' = .ok (d, b') :=
    fun hm => ((asks_spell _).replays b _ b hm).2 b' h.agrees
  -- The slot of a new text is behind those of all others.
  have hfresh : ∀ s t i, c = .utf8 s → b.slot? (.utf8 t) = some i → i ≠ slot := by
    rintro s t i hc hi rfl
    have hlt := hb.before t i hi
    have heq := (hnew s hc).1
    omega
  have hb' : b'.Rooted := by
    refine ⟨hlimit, fun s i hi => ?_, fun s t i hs ht => ?_, fun d j hj => ?_⟩
    · rcases h.only _ i hi with hold | ⟨hc, rfl⟩
      · exact Nat.lt_of_lt_of_le (hb.before s i hold) hnext
      · exact (hnew s hc.symm).2
    · rcases h.only _ i hs with hs | ⟨hcs, hi⟩
      · rcases h.only _ i ht with ht | ⟨hct, hi⟩
        · exact hb.distinct s t i hs ht
        · exact absurd hi (hfresh t s i hct.symm hs)
      · rcases h.only _ i ht with ht | ⟨hct, -⟩
        · exact absurd hi (hfresh s t i hcs.symm ht)
        · cases hcs.trans hct.symm
          rfl
    · rcases h.only d j hj with hold | ⟨rfl, -⟩
      · obtain ⟨m, hm⟩ := hb.spelled d j hold
        exact ⟨m, hagain hm⟩
      · exact ⟨n, hagain hspell⟩
  refine ⟨hb', fun m => ⟨fun hm => ?_, ?_⟩⟩
  · obtain ⟨d, j, hd, hj⟩ := knows_iff.1 hm
    rcases h.only d j hj with hold | ⟨rfl, -⟩
    · obtain ⟨m', hm'⟩ := hb.spelled d j hold
      rw [hb'.unique hd (hagain hm')]
      exact .inl (knows_iff.2 ⟨d, j, hm', hold⟩)
    · exact .inr (hb'.unique hd (hagain hspell))
  · rintro (hm | rfl)
    · exact hm.mono h.agrees
    · obtain ⟨j, hj⟩ := h.told
      exact knows_iff.2 ⟨c, j, hagain hspell, hj⟩

/-- Where the tables stay as they are, so does what is known. -/
theorem Rooted.of_agrees (hb : b.Rooted) (h : b.Agrees b') (h' : b'.Agrees b)
    (hnext : b.constants.next ≤ b'.constants.next) (hlimit : b'.constants.next ≤ slotLimit) :
    b'.Rooted ∧ ∀ m, b'.Knows m ↔ b.Knows m := by
  refine ⟨⟨hlimit, fun s i hi => ?_, fun s t i hs ht => ?_, fun c i hi => ?_⟩, fun m => ?_⟩
  · exact Nat.lt_of_lt_of_le (hb.before s i (h' _ i hi)) hnext
  · exact hb.distinct s t i (h' _ i hs) (h' _ i ht)
  · obtain ⟨n, hn⟩ := hb.spelled c i (h' c i hi)
    exact ⟨n, ((asks_spell _).replays b c b hn).2 b' h⟩
  · exact ⟨fun hm => hm.mono h', fun hm => hm.mono h⟩

/-! ## Counting what is missing -/

/-- The need is met, or it is promised that it will be. -/
def Covers (promised : Need → Prop) (b : PoolBuilder) (n : Need) : Prop :=
  promised n ∨ b.Knows n

open Classical in
/-- The different needs that a slot has to be taken for. -/
noncomputable def missing (promised : Need → Prop) (b : PoolBuilder) (needs : List Need) :
    Finset Need :=
  needs.toFinset.filter fun n => ¬ Covers promised b n

/-- What is missing is what is needed and neither promised nor known. -/
theorem mem_missing : n ∈ missing promised b needs ↔ n ∈ needs ∧ ¬ Covers promised b n := by
  simp [missing]

/-- What is missing the second time has not been asked for the first time. -/
theorem card_missing_append
    (h : ∀ n, Covers promised b' n ↔ Covers promised b n ∨ n ∈ needs) :
    (missing promised b (needs ++ more)).card =
      (missing promised b needs).card + (missing promised b' more).card := by
  have hdisjoint : Disjoint (missing promised b needs) (missing promised b' more) := by
    rw [Finset.disjoint_left]
    intro n hn hn'
    exact (mem_missing.1 hn').2 ((h n).2 (.inr (mem_missing.1 hn).1))
  rw [← Finset.card_union_of_disjoint hdisjoint]
  congr 1
  ext n
  rw [Finset.mem_union, mem_missing, mem_missing, mem_missing, h, List.mem_append]
  tauto

/-- What is asked for is known afterwards, and every part of it that was missing took one slot. -/
structure Adds (promised : Need → Prop) (needs : List Need) (b b' : PoolBuilder) : Prop where
  rooted : b'.Rooted
  agrees : b.Agrees b'
  covers : ∀ n, Covers promised b' n ↔ Covers promised b n ∨ n ∈ needs
  next : b'.constants.next = b.constants.next + (missing promised b needs).card

theorem Adds.refl (hb : b.Rooted) : Adds promised [] b b where
  rooted := hb
  agrees := .refl b
  covers := by simp
  next := by simp [missing]

theorem Adds.trans (h : Adds promised needs b b') (h' : Adds promised more b' b'') :
    Adds promised (needs ++ more) b b'' where
  rooted := h'.rooted
  agrees := h.agrees.trans h'.agrees
  covers n := by rw [h'.covers, h.covers, List.mem_append, or_assoc]
  next := by rw [h'.next, h.next, card_missing_append h.covers, Nat.add_assoc]

/-- A run of a writer adds what is asked for, or there is no room for all that is missing. -/
structure Counts (promised : Need → Prop) (needs : List Need) (b : PoolBuilder)
    (run : Except Overflow (α × PoolBuilder)) : Prop where
  ok : ∀ a b', run = .ok (a, b') → Adds promised needs b b'
  error : ∀ o, run = .error o →
    o.Proper ∧ slotLimit < b.constants.next + (missing promised b needs).card

namespace Counts

theorem pure (hb : b.Rooted) (a : α) : Counts promised [] b ((Pure.pure a : Build α) b) where
  ok a' b' h := by
    cases h
    exact .refl hb
  error o h := by cases h

/-- The second step starts where the first has got to. -/
theorem bind {x : Build α} {f : α → Build β} (hx : Counts promised needs b (x b))
    (hf : ∀ a b', x b = .ok (a, b') → Adds promised needs b b' → Counts promised more b' (f a b')) :
    Counts promised (needs ++ more) b ((x >>= f) b) := by
  cases hrun : x b with
  | error o =>
    rw [bind_of_error hrun]
    obtain ⟨hproper, hfull⟩ := hx.error o hrun
    refine ⟨fun _ _ h => (by cases h), fun o' h => ?_⟩
    cases h
    refine ⟨hproper, Nat.lt_of_lt_of_le hfull ?_⟩
    refine Nat.add_le_add_left (Finset.card_le_card fun n hn => ?_) _
    rw [mem_missing] at hn ⊢
    exact ⟨List.mem_append_left _ hn.1, hn.2⟩
  | ok next =>
    obtain ⟨a, middle⟩ := next
    have hadds := hx.ok a middle hrun
    have hsecond := hf a middle hrun hadds
    rw [bind_of_ok hrun]
    refine ⟨fun d b' h => hadds.trans (hsecond.ok d b' h), fun o h => ?_⟩
    obtain ⟨hproper, hfull⟩ := hsecond.error o h
    rw [hadds.next] at hfull
    rw [card_missing_append hadds.covers, ← Nat.add_assoc]
    exact ⟨hproper, hfull⟩

end Counts

/-! ## Asking -/

/-- What is shared takes one slot. -/
theorem width_of_isShared (hc : c.IsShared) : c.width = 1 := by
  cases c <;> first | rfl | exact hc.elim

/-- A constant is only refused if it has no room. -/
theorem of_push_eq_error (h : push c b = .error o) :
    o.Proper ∧ slotLimit < b.constants.next + c.width := by
  simp only [push] at h
  split at h
  · cases h
  · next hroom =>
    cases h
    exact ⟨Nat.lt_of_not_le hroom, Nat.lt_of_not_le hroom⟩

/-- A constant that the tables do not have is added at the end and told. -/
theorem tells_of_intern (hc : c.IsShared) (hnone : b.slot? c = none) {i : Index}
    (h : intern c b = .ok (i, b')) : i.toNat = b.constants.next ∧ Tells c i b b' ∧
      b'.constants.next = b.constants.next + 1 ∧ b'.constants.next ≤ slotLimit := by
  have hagrees := (Replays.intern hc b i b' h).1
  rcases of_intern_eq_ok h with ⟨hslot, -⟩ | ⟨-, pushed, hpush, rfl⟩
  · rw [hnone] at hslot
    cases hslot
  obtain ⟨hi, hpushed, hlimit⟩ := of_push_eq_ok hpush
  rw [constants_enter]
  refine ⟨hi, ⟨hagrees, fun d j hj => ?_, i, ?_⟩, ?_, Nat.le_of_lt_succ hlimit⟩
  · rw [slot?_enter hc] at hj
    split at hj
    · next hd => exact .inr ⟨hd, (Option.some.inj hj).symm⟩
    · rw [slot?_of_push_eq_ok hpush] at hj
      exact .inl hj
  · rw [slot?_enter hc, if_pos rfl]
  · rw [hpushed, ← width_of_isShared hc]
    rfl

/-- Looking up fails only where a constant is missing and has no room. -/
theorem of_intern_eq_error (hc : c.IsShared) (h : intern c b = .error o) :
    b.slot? c = none ∧ o.Proper ∧ slotLimit < b.constants.next + 1 := by
  unfold intern shared at h
  split at h
  · cases h
  · next hnone =>
    cases hpush : push c b with
    | error o' =>
      rw [hpush] at h
      cases h
      rw [← width_of_isShared hc]
      exact ⟨hnone, of_push_eq_error hpush⟩
    | ok pushed =>
      rw [hpush] at h
      cases h

/-- What is spelled with constants that are there takes a slot, unless it is known. -/
theorem counts_intern (hb : b.Rooted) (hc : c.IsShared) (hspell : spell n.entry b = .ok (c, b))
    (hkept : promised n → b.Knows n) : Counts promised [n] b (intern c b) := by
  -- A constant with a slot was known before, and a new one is the only one that is missing.
  cases hslot : b.slot? c with
  | some i =>
    have hknown : Covers promised b n := .inr (knows_iff.2 ⟨c, i, hspell, hslot⟩)
    rw [intern_of_slot? hslot]
    refine ⟨fun j b' h => ?_, fun o h => by cases h⟩
    cases h
    refine ⟨hb, .refl b, fun m => ?_, ?_⟩
    · rw [List.mem_singleton, or_iff_left_of_imp]
      rintro rfl
      exact hknown
    · have hempty : missing promised b [n] = ∅ := by
        ext m
        simp only [mem_missing, List.mem_singleton, Finset.notMem_empty, iff_false]
        rintro ⟨rfl, hm⟩
        exact hm hknown
      rw [hempty, Finset.card_empty, Nat.add_zero]
  | none =>
    have hunknown : ¬ b.Knows n := by
      intro hn
      obtain ⟨d, i, hd, hi⟩ := knows_iff.1 hn
      cases hspell.symm.trans hd
      rw [hslot] at hi
      cases hi
    have hsingle : missing promised b [n] = {n} := by
      ext m
      rw [mem_missing, List.mem_singleton, Finset.mem_singleton, and_iff_left_of_imp]
      rintro rfl hm
      exact hunknown (hm.elim hkept id)
    refine ⟨fun i b' h => ?_, fun o h => ?_⟩
    · obtain ⟨hi, htells, hnext, hlimit⟩ := tells_of_intern hc hslot h
      obtain ⟨hrooted, hknows⟩ := hb.tells htells hspell (by omega) hlimit fun _ _ => by omega
      refine ⟨hrooted, htells.agrees, fun m => ?_, ?_⟩
      · rw [Covers, hknows, List.mem_singleton, ← or_assoc]
        rfl
      · rw [hnext, hsingle, Finset.card_singleton]
    · rw [hsingle, Finset.card_singleton]
      exact (of_intern_eq_error hc h).2

/-- Asking for a text takes one slot, unless it is known. -/
theorem counts_text {s : String} (hb : b.Rooted) (hkept : promised (.text s) → b.Knows (.text s)) :
    Counts promised [.text s] b (text s b) :=
  counts_intern (c := .utf8 s) hb trivial rfl hkept

/-- Asking takes a slot for every part that is missing. -/
theorem Need.counts_ask (n : Need) (hb : b.Rooted)
    (hkept : ∀ m ∈ n.parts, promised m → b.Knows m) : Counts promised n.parts b (n.ask b) := by
  cases n with
  | text s => exact counts_text hb (hkept _ List.mem_cons_self)
  | className name =>
    refine (counts_text hb (hkept _ List.mem_cons_self)).bind fun i b' htext hadds => ?_
    refine counts_intern (c := .className i) hadds.rooted trivial ?_ fun hm =>
      (hkept _ (by simp [parts]) hm).mono hadds.agrees
    exact bind_of_ok (text_again htext)
  | pair name descriptor =>
    refine (counts_text hb (hkept _ List.mem_cons_self)).bind fun i b' hname hadds => ?_
    have hsecond : Counts promised [.text descriptor] b' (PoolBuilder.text descriptor b') :=
      counts_text hadds.rooted fun hm => (hkept _ (by simp [parts]) hm).mono hadds.agrees
    refine hsecond.bind fun j b'' hdescriptor hadds' => ?_
    refine counts_intern (c := .nameAndType i j) hadds'.rooted trivial ?_ fun hm =>
      (hkept _ (by simp [parts]) hm).mono (hadds.agrees.trans hadds'.agrees)
    have hname' := ((asks_text name).replays b i b' hname).2 b'' hadds'.agrees
    exact (bind_of_ok hname').trans (bind_of_ok (text_again hdescriptor))

/-- A writer takes a slot for every part that is missing among all it asks for. -/
theorem Asks.counts {w : Build α} (hw : Asks w needs) (hb : b.Rooted)
    (hkept : ∀ m ∈ needs.flatMap Need.parts, promised m → b.Knows m) :
    Counts promised (needs.flatMap Need.parts) b (w b) := by
  induction hw generalizing b with
  | pure a => exact .pure hb a
  | ask n =>
    rw [List.flatMap_singleton] at hkept ⊢
    exact n.counts_ask hb hkept
  | bind _ _ hx hf =>
    rw [List.flatMap_append] at hkept ⊢
    refine (hx hb fun m hm => hkept m (List.mem_append_left _ hm)).bind fun a b' _ hadds => ?_
    exact hf a hadds.rooted fun m hm hp =>
      (hkept m (List.mem_append_right _ hm) hp).mono hadds.agrees

end PoolBuilder

end Crosswalk
