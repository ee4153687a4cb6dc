import Crosswalk.Proofs.Pool.Asking

/-!
# The one pool that entries lead to

However a pool has been built, three things hold in the end (`Bears`): of equal constants the tables
have the first one, every constant is what its entry is spelled with, and nothing is missing for
that. Together they leave no choice: two builders that bear the same entries have the same tables
(`Bears.agrees`) and the same constants (`Bears.constants_eq`).

Seeding gets there step by step. While there are slots that are only held, what they wait for is
listed as pending. Classes and pairs are settled in the order of their slots, which is why the one
that is entered first is the foremost one.
-/

namespace Crosswalk

namespace PoolBuilder

variable {α : Type} {b b' b'' : PoolBuilder} {items pending : List (Nat × Entry)}

/-! ## What holds of a pool in the end -/

/-- Every constant that could be shared is in the tables, and the first of its kind is. -/
def Foremost (b : PoolBuilder) : Prop :=
  ∀ i c, c.IsShared → b.constants.find? i = some c → ∃ slot, b.slot? c = some slot ∧ slot.toNat ≤ i

/-- The constant in the slot is the one that the entry is spelled with, and nothing is missing for
it. -/
def Placed (b : PoolBuilder) (slot : Nat) (e : Entry) : Prop :=
  ∃ c, b.constants.find? slot = some c ∧ spell e b = .ok (c, b)

/-- A constant that stays is still what its entry is spelled with when the tables have more. -/
theorem Placed.mono {slot : Nat} {e : Entry} (h : b.Placed slot e) (hagrees : b.Agrees b')
    (hkept : ∀ c, b.constants.find? slot = some c → b'.constants.find? slot = some c) :
    b'.Placed slot e := by
  obtain ⟨c, hc, hspell⟩ := h
  exact ⟨c, hkept c hc, ((asks_spell e).replays b c b hspell).2 b' hagrees⟩

/-- The entries are in their slots, except for those that are pending. What has been added besides
points at nothing by slot. -/
structure Bears (items pending : List (Nat × Entry)) (b : PoolBuilder) : Prop where
  coherent : b.Coherent
  foremost : b.Foremost
  held : ∀ item ∈ pending, b.constants.find? item.1 = some (.integer 0)
  placed : ∀ item ∈ items, item ∉ pending → b.Placed item.1 item.2
  added : ∀ i c, b.constants.find? i = some c → i ∉ items.map Prod.fst →
    ∃ e : Entry, (∀ p, e.Anchored p) ∧ b.Placed i e

/-! ## Asking -/

/-- A constant that is spelled may be looked up or added. -/
theorem Bears.intern (h : Bears items pending b) {c : Constant} {e : Entry} {i : Index}
    (hc : c.IsShared) (hfree : ∀ p, e.Anchored p) (hspell : spell e b = .ok (c, b))
    (hintern : intern c b = .ok (i, b')) : Bears items pending b' := by
  obtain ⟨hagrees, -⟩ := Replays.intern hc b i b' hintern
  rcases of_intern_eq_ok hintern with ⟨-, rfl⟩ | ⟨hnone, pushed, hpush, rfl⟩
  · exact h
  -- The new constant stands behind all others, so whatever was the first of its kind still is.
  obtain ⟨hslot, hpushed, -⟩ := of_push_eq_ok hpush
  have hfind : ∀ j, (pushed.enter i c).constants.find? j =
      if j = b.constants.next then some c else b.constants.find? j := by
    intro j
    rw [constants_enter, hpushed, Slots.find?_push h.coherent.laidOut]
  have hkept : ∀ j d, b.constants.find? j = some d →
      (pushed.enter i c).constants.find? j = some d := by
    intro j d hd
    rw [constants_enter, hpushed]
    exact kept_push h.coherent c hd
  refine
    { coherent := (h.coherent.push hpush).enter ?_
      foremost := fun j d hd hj => ?_
      held := fun item hitem => hkept _ _ (h.held item hitem)
      placed := fun item hitem hsettled => (h.placed item hitem hsettled).mono hagrees (hkept _)
      added := fun j d hj hadded => ?_ }
  · rw [← constants_enter (b := pushed) i c, hfind, if_pos hslot]
  · rw [hfind] at hj
    split at hj
    · next hnext =>
      cases hj
      exact ⟨i, by rw [slot?_enter hc, if_pos rfl], by omega⟩
    · obtain ⟨slot, hd, hle⟩ := h.foremost j d hd hj
      exact ⟨slot, hagrees d slot hd, hle⟩
  · rw [hfind] at hj
    split at hj
    · next hnext =>
      cases hj
      refine ⟨e, hfree, c, by rw [hfind, if_pos hnext], ?_⟩
      exact ((asks_spell e).replays b c b hspell).2 _ hagrees
    · obtain ⟨e', hfree', hplaced⟩ := h.added j d hj hadded
      exact ⟨e', hfree', hplaced.mono hagrees (hkept j)⟩

/-- A text that has been asked for is known. -/
theorem text_again {s : String} {i : Index} (h : text s b = .ok (i, b')) :
    text s b' = .ok (i, b') :=
  (((asks_text s).replays b i b' h).2 b') (.refl b')

/-- A pool goes on bearing its entries when a text is asked for. -/
theorem Bears.text (h : Bears items pending b) {s : String} {i : Index}
    (htext : text s b = .ok (i, b')) : Bears items pending b' :=
  h.intern (c := .utf8 s) (e := .utf8 s) trivial (fun _ => trivial) rfl htext

/-- Asking for something leaves everything in order. -/
theorem Bears.ask (h : Bears items pending b) {n : Need} {i : Index}
    (hask : n.ask b = .ok (i, b')) :
    Bears items pending b' := by
  cases n with
  | text s => exact h.text hask
  | className name =>
    obtain ⟨k, middle, htext, hclass⟩ := of_bind_ok hask
    refine (h.text htext).intern (c := .className k) (e := .className name) trivial
      (fun _ => trivial) ?_ hclass
    exact bind_of_ok (text_again htext)
  | pair name descriptor =>
    obtain ⟨k, first, hname, hrest⟩ := of_bind_ok hask
    obtain ⟨d, second, hdescriptor, hpair⟩ := of_bind_ok hrest
    refine ((h.text hname).text hdescriptor).intern (c := .nameAndType k d)
      (e := .nameAndType name descriptor) trivial (fun _ => trivial) ?_ hpair
    have hagrees := ((asks_text descriptor).replays first d second hdescriptor).1
    have hname' := ((asks_text name).replays b k first hname).2 second hagrees
    exact (bind_of_ok hname').trans (bind_of_ok (text_again hdescriptor))

/-- A writer leaves everything in order. -/
theorem Bears.of_asks {w : Build α} {needs : List Need} (hw : Asks w needs) {a : α}
    (h : Bears items pending b) (hrun : w b = .ok (a, b')) : Bears items pending b' := by
  induction hw generalizing b b' with
  | pure a =>
    cases hrun
    exact h
  | ask n => exact h.ask hrun
  | bind _ _ hx hf =>
    obtain ⟨a, middle, hfirst, hsecond⟩ := of_bind_ok hrun
    exact hf a (hx h hfirst) hsecond

/-! ## Taking all slots -/

/-- What an insertion tells a table is there, unless something has been before. -/
theorem getElem?_insertIfNew_or {κ : Type} [BEq κ] [LawfulBEq κ] [Hashable κ] [LawfulHashable κ]
    (table : Std.HashMap κ Index) (key : κ) (slot : Index) :
    (table[key]? = none → (table.insertIfNew key slot)[key]? = some slot) ∧
      ∀ (other : κ) (i : Index), table[other]? = some i →
      (table.insertIfNew key slot)[other]? = some i := by
  constructor
  · intro hnone
    have hnew : key ∉ table := by
      rw [Std.HashMap.mem_iff_isSome_getElem?, hnone]
      exact Bool.false_ne_true
    rw [Std.HashMap.getElem?_insertIfNew, if_pos ⟨BEq.rfl, hnew⟩]
  · intro other i hi
    have hmem : other ∈ table := by
      rw [Std.HashMap.mem_iff_isSome_getElem?, hi]
      rfl
    rw [Std.HashMap.getElem?_insertIfNew, if_neg, hi]
    rintro ⟨hkey, hnew⟩
    exact hnew (eq_of_beq hkey ▸ hmem)

/-- The tables are told the slot of one constant, unless they have one for it, and nothing else. -/
structure Tells (c : Constant) (slot : Index) (b b' : PoolBuilder) : Prop where
  agrees : b.Agrees b'
  only : ∀ d j, b'.slot? d = some j → b.slot? d = some j ∨ d = c ∧ j = slot
  told : ∃ j, b'.slot? c = some j

/-- A text that gets a slot is in the table from now on. -/
theorem tells_insertIfNew {s : String} {slot : Index} {pushed : PoolBuilder}
    (h : push (.utf8 s) b = .ok (slot, pushed)) :
    Tells (.utf8 s) slot b { pushed with texts := pushed.texts.insertIfNew s slot } := by
  have hslots := slot?_of_push_eq_ok h
  obtain ⟨hnew, hkept⟩ := getElem?_insertIfNew_or pushed.texts s slot
  refine ⟨fun d j hd => ?_, fun d j hd => ?_, ?_⟩
  · rw [← hslots] at hd
    cases d with
    | utf8 t => exact hkept t j hd
    | _ => exact hd
  · rw [← hslots]
    cases d with
    | utf8 t => exact (of_getElem?_insertIfNew hd).imp id (.imp (congrArg _) id)
    | _ => exact .inl hd
  · cases hs : pushed.texts[s]? with
    | none => exact ⟨slot, hnew hs⟩
    | some j => exact ⟨j, hkept s j hs⟩

/-- A text that gets the next slot is in the tables, with that slot or with an earlier one. -/
theorem foremost_reserve {e : Entry} (hb : b.Coherent) (h : b.Foremost)
    (hreserve : reserve b.constants.next e b = .ok ((), b')) : b'.Foremost := by
  obtain ⟨⟨slot, pushed⟩, hpush, hreserve⟩ := bind_eq_ok_iff.1 hreserve
  obtain ⟨hslot, hpushed, -⟩ := of_push_eq_ok hpush
  rw [← hslot, UInt16.ofNat_toNat] at hreserve
  have hfind : ∀ i, pushed.constants.find? i =
      if i = b.constants.next then some (holding e) else b.constants.find? i := by
    intro i
    rw [hpushed, Slots.find?_push hb.laidOut]
  have hold : ∀ {i : Nat} {c : Constant}, c.IsShared → b.Agrees b' → i ≠ b.constants.next →
      pushed.constants.find? i = some c → ∃ slot, b'.slot? c = some slot ∧ slot.toNat ≤ i := by
    intro i c hc hagrees hi hfound
    rw [hfind, if_neg hi] at hfound
    obtain ⟨slot, hc, hle⟩ := h i c hc hfound
    exact ⟨slot, hagrees c slot hc, hle⟩
  intro i c hc hfound
  cases e with
  | utf8 s =>
    have htells := tells_insertIfNew hpush
    cases hreserve
    by_cases hi : i = b.constants.next
    · rw [hfind, if_pos hi] at hfound
      cases hfound
      obtain ⟨j, hj⟩ := htells.told
      refine ⟨j, hj, ?_⟩
      -- A text that is there twice keeps the slot of the first.
      rcases htells.only _ j hj with hbefore | ⟨-, rfl⟩
      · have hlt := hb.lt_next (hb.find?_of_slot? hbefore)
        omega
      · omega
    · exact hold hc htells.agrees hi hfound
  | _ =>
    have hslots := slot?_of_push_eq_ok hpush
    cases hreserve
    -- Of anything else only the place is held, by a number, which is not shared.
    refine hold hc (fun d j hd => (hslots d).trans hd) ?_ hfound
    rintro rfl
    rw [hfind, if_pos rfl] at hfound
    cases hfound
    exact hc.elim

/-! ## Settling -/

/-- The tables have no slot for a class or a pair but those before the given one. -/
def Trailing (b : PoolBuilder) (slot : Nat) : Prop :=
  ∀ c j, c.Pointing → b.slot? c = some j → j.toNat < slot

/-- A text enters no class and no pair. -/
theorem slot?_of_text_eq_ok {s : String} {i : Index} (h : text s b = .ok (i, b')) {d : Constant}
    (hd : d.Pointing) : b'.slot? d = b.slot? d := by
  rcases of_intern_eq_ok (c := .utf8 s) h with ⟨-, rfl⟩ | ⟨-, pushed, hpush, rfl⟩
  · rfl
  · rw [slot?_enter (c := .utf8 s) trivial, if_neg, slot?_of_push_eq_ok hpush]
    rintro rfl
    exact hd

/-- A class or a pair needs texts only. -/
theorem slot?_of_spell_eq_ok {e : Entry} {c : Constant} (he : e.isShared = true)
    (h : spell e b = .ok (c, b')) {d : Constant} (hd : d.Pointing) : b'.slot? d = b.slot? d := by
  cases e with
  | className name =>
    obtain ⟨i, middle, htext, h⟩ := of_bind_ok h
    cases h
    exact slot?_of_text_eq_ok htext hd
  | nameAndType name descriptor =>
    obtain ⟨i, middle, htext, h⟩ := of_bind_ok h
    obtain ⟨j, last, htext', h⟩ := of_bind_ok h
    cases h
    rw [slot?_of_text_eq_ok htext' hd, slot?_of_text_eq_ok htext hd]
  | _ => cases he

/-- Only a class or a pair is spelled as something that others share. -/
theorem isShared_of_spell_eq_ok {e : Entry} {c : Constant} (he : e.points)
    (h : spell e b = .ok (c, b')) (hc : c.IsShared) : e.isShared = true := by
  have hmap : ∀ {α : Type} {x : Build α} (make : α → Constant), (∀ a, ¬ (make a).IsShared) →
      ¬ (x >>= fun a => pure (make a)) b = .ok (c, b') := by
    intro α x make hmake h
    obtain ⟨a, middle, -, h⟩ := of_bind_ok h
    cases h
    exact hmake a hc
  have hmember : ∀ {owner name descriptor : String} (make : Index → Index → Constant),
      (∀ i j, ¬ (make i j).IsShared) → ¬ (do
        let o ← className owner
        pure (make o (← pair name descriptor))) b = .ok (c, b') := by
    intro owner name descriptor make hmake h
    obtain ⟨o, middle, -, h⟩ := of_bind_ok h
    obtain ⟨d, last, -, h⟩ := of_bind_ok h
    cases h
    exact hmake o d hc
  -- Besides classes and pairs, all are made in one of the two ways above.
  cases e with
  | utf8 _ | rawUtf8 _ | integer _ | float _ | long _ | double _ =>
    simp [Entry.points, Entry.isShared, Entry.isPointing] at he
  | className _ | nameAndType _ _ => rfl
  | rawString _ | methodHandle _ _ =>
    cases h
    exact hc.elim
  | fieldRef m => exact absurd h (hmember .fieldRef fun _ _ h => h)
  | methodRef m ofInterface =>
    exact absurd h (hmember (.methodRef · · ofInterface) fun _ _ h => h)
  | string s => exact absurd h (hmap .string fun _ h => h)
  | methodType descriptor => exact absurd h (hmap .methodType fun _ h => h)
  | dynamic bootstrap _ _ => exact absurd h (hmap (.dynamic bootstrap) fun _ h => h)
  | invokeDynamic bootstrap _ _ => exact absurd h (hmap (.invokeDynamic bootstrap) fun _ h => h)
  | moduleName name => exact absurd h (hmap .moduleName fun _ h => h)
  | packageName name => exact absurd h (hmap .packageName fun _ h => h)

/-- Sharing tells the tables the slot of a class or a pair, unless they have one. -/
structure Shares (slot : Nat) (c : Constant) (b b' : PoolBuilder) : Prop where
  agrees : b.Agrees b'
  only : ∀ d j, b'.slot? d = some j → b.slot? d = some j ∨ d = c ∧ j = UInt16.ofNat slot
  told : c.IsShared → c.Pointing → ∃ j, b'.slot? c = some j

/-- Sharing a constant enters it. -/
theorem shares_share {slot : Nat} {c : Constant} (h : share slot c b = .ok ((), b')) :
    Shares slot c b b' := by
  have hisSome : ∀ {x : Option Index} {y : Option Index},
    (x = none → y = some (UInt16.ofNat slot)) →
      (∀ j, x = some j → y = some j) → ∃ j, y = some j := by
    intro x y hnone hsome
    cases x with
    | none => exact ⟨_, hnone rfl⟩
    | some j => exact ⟨j, hsome j rfl⟩
  cases c with
  | className name =>
    cases h
    obtain ⟨hnew, hkept⟩ := getElem?_insertIfNew_or b.classes name (UInt16.ofNat slot)
    refine ⟨fun d j hj => ?_, fun d j hj => ?_, fun _ _ => hisSome hnew (hkept name)⟩
    · cases d with
      | className n => exact hkept n j hj
      | _ => exact hj
    · cases d with
      | className n => exact (of_getElem?_insertIfNew hj).imp id (.imp (congrArg _) id)
      | _ => exact .inl hj
  | nameAndType name descriptor =>
    cases h
    obtain ⟨hnew, hkept⟩ := getElem?_insertIfNew_or b.pairs (name, descriptor) (UInt16.ofNat slot)
    refine ⟨fun d j hj => ?_, fun d j hj => ?_, fun _ _ => hisSome hnew (hkept (name, descriptor))⟩
    · cases d with
      | nameAndType n t => exact hkept (n, t) j hj
      | _ => exact hj
    · cases d with
      | nameAndType n t =>
        refine (of_getElem?_insertIfNew hj).imp id fun ⟨hkey, hslot⟩ => ⟨?_, hslot⟩
        rw [(Prod.mk.inj hkey).1, (Prod.mk.inj hkey).2]
      | _ => exact .inl hj
  | utf8 _ =>
    cases h
    exact ⟨.refl _, fun _ _ hj => .inl hj, fun _ hpointing => hpointing.elim⟩
  | _ =>
    cases h
    exact ⟨.refl _, fun _ _ hj => .inl hj, fun hshared => hshared.elim⟩

theorem constants_of_share {slot : Nat} {c : Constant} (h : share slot c b = .ok ((), b')) :
    b'.constants = b.constants := by
  cases c <;> cases h <;> rfl

/-- What is known does not depend on the constants. -/
theorem slot?_constants (constants : ConstantPool) (c : Constant) :
    slot? { b with constants } c = b.slot? c := by
  cases c <;> rfl

/-- Nothing is in the way of sharing a constant and putting it in its place, which takes no slot. -/
theorem exists_share_settle (slot : Nat) (c : Constant) (b : PoolBuilder) :
    ∃ b', (share slot c >>= fun _ => PoolBuilder.settle slot c) b = .ok ((), b') ∧
      Shares slot c b b' ∧ b'.constants.next = b.constants.next := by
  obtain ⟨middle, hshare⟩ : ∃ middle, share slot c b = .ok ((), middle) := by
    cases c <;> exact ⟨_, rfl⟩
  have hconstants := constants_of_share hshare
  have hshares := shares_share hshare
  refine ⟨{ middle with constants := middle.constants.set slot c }, bind_of_ok hshare, ?_, ?_⟩
  · refine ⟨fun d j hj => ?_, fun d j hj => ?_, fun hshared hpointing => ?_⟩
    · exact (slot?_constants _ d).trans (hshares.agrees d j hj)
    · exact hshares.only d j ((slot?_constants _ d).symm.trans hj)
    · rw [slot?_constants]
      exact hshares.told hshared hpointing
  · rw [Slots.next_set, hconstants]

/-- A slot that was held has its constant, which the tables have been told. -/
structure Fills (slot : Nat) (c : Constant) (b b' : PoolBuilder) : Prop where
  coherent : b'.Coherent
  find? : ∀ i, b'.constants.find? i = if i = slot then some c else b.constants.find? i
  shares : Shares slot c b b'
  slot : (UInt16.ofNat slot).toNat = slot

/-- Settling fills one slot. -/
theorem fills_of_settle {slot : Nat} {c : Constant} (hb : b.Coherent)
    (hheld : b.constants.find? slot = some (.integer 0)) (hc : c.Pointing)
    (h : (share slot c >>= fun _ => PoolBuilder.settle slot c) b = .ok ((), b')) :
    Fills slot c b b' := by
  obtain ⟨last, hlast, hshares, -⟩ := exists_share_settle slot c b
  cases hlast.symm.trans h
  obtain ⟨⟨⟩, shared, hshare, hset⟩ := of_bind_ok h
  have hfind := Slots.find?_set (a := c) hb.laidOut hheld
  have hslot := hb.toNat_ofNat hheld
  obtain ⟨hconstants, hcoherent⟩ := of_share_eq_ok hshare (by rw [hslot, hfind, if_pos rfl])
    (hb.settle hheld hc)
  have hb' : b' = { shared with constants := b.constants.set slot c } := by
    cases hset
    rw [hconstants]
  exact ⟨hb' ▸ hcoherent, fun i => hb' ▸ hfind i, hshares, hslot⟩

/-- An entry that is pending gets its constant. Classes and pairs may only be settled as long as no
later one has been. -/
theorem Bears.settle {slot : Nat} {e : Entry} (h : Bears items ((slot, e) :: pending) b)
    (he : e.points) (hmem : (slot, e) ∈ items)
    (hunique : ∀ other ∈ items, other.1 = slot → other = (slot, e))
    (hpending : ∀ item ∈ pending, item.1 ≠ slot) (htrailing : e.isShared = true → b.Trailing slot)
    (hsettle : settleEntry slot e b = .ok ((), b')) :
    Bears items pending b' ∧ b.Agrees b' ∧ (e.isShared = true → b'.Trailing (slot + 1)) := by
  obtain ⟨c, middle, hspell, hrest⟩ := of_bind_ok hsettle
  have hmiddle := h.of_asks (asks_spell e) hspell
  have hheld := hmiddle.held (slot, e) List.mem_cons_self
  have hpointing := ((writes_spell he b c middle hspell h.coherent).2.2 _ (.refl _)).1
  have hfills := fills_of_settle hmiddle.coherent hheld hpointing hrest
  have hagrees := hfills.shares.agrees
  have hspelled := (asks_spell e).replays b c middle hspell
  -- What the tables have for a class or a pair is from before, or it is the slot itself.
  have hbefore : e.isShared = true → ∀ d j, d.Pointing → b'.slot? d = some j → j.toNat ≤ slot := by
    intro hshared d j hd hj
    rcases hfills.shares.only d j hj with hold | ⟨-, rfl⟩
    · rw [slot?_of_spell_eq_ok hshared hspell hd] at hold
      exact Nat.le_of_lt (htrailing hshared d j hd hold)
    · exact Nat.le_of_eq hfills.slot
  have hmoved : ∀ {i : Nat} {e' : Entry}, i ≠ slot → middle.Placed i e' → b'.Placed i e' :=
    fun hne hplaced => hplaced.mono hagrees fun d hd => by rw [hfills.find?, if_neg hne, hd]
  refine ⟨?_, hspelled.1.trans hagrees, fun hshared d j hd hj =>
    Nat.lt_succ_of_le (hbefore hshared d j hd hj)⟩
  refine
    { coherent := hfills.coherent
      foremost := fun i d hd hi => ?_
      held := fun item hitem => ?_
      placed := fun item hitem hsettled => ?_
      added := fun i d hi hadded => ?_ }
  · rw [hfills.find?] at hi
    split at hi
    · next hslot =>
      cases hi
      obtain ⟨j, hj⟩ := hfills.shares.told hd hpointing
      have hshared := isShared_of_spell_eq_ok he hspell hd
      exact ⟨j, hj, hslot ▸ hbefore hshared c j hpointing hj⟩
    · obtain ⟨j, hj, hle⟩ := hmiddle.foremost i d hd hi
      exact ⟨j, hagrees d j hj, hle⟩
  · rw [hfills.find?, if_neg (hpending item hitem)]
    exact hmiddle.held item (List.mem_cons_of_mem _ hitem)
  · by_cases hi : item.1 = slot
    · cases hunique item hitem hi
      exact ⟨c, by rw [hfills.find?, if_pos rfl], hspelled.2 b' hagrees⟩
    · refine hmoved hi (hmiddle.placed item hitem ?_)
      rw [List.mem_cons, not_or]
      exact ⟨fun heq => hi (heq ▸ rfl), hsettled⟩
  · have hi' : i ≠ slot := by
      rintro rfl
      exact hadded (List.mem_map_of_mem hmem)
    rw [hfills.find?, if_neg hi'] at hi
    obtain ⟨e', hfree, hplaced⟩ := hmiddle.added i d hi hadded
    exact ⟨e', hfree, hmoved hi' hplaced⟩

/-- Entries that are pending get their constants one after the other. -/
theorem Bears.settleAll {tasks : List (Nat × Entry)} (h : Bears items (tasks ++ pending) b)
    (hpoints : ∀ item ∈ tasks, item.2.points) (hmem : ∀ item ∈ tasks, item ∈ items)
    (hunique : ∀ item ∈ items, ∀ other ∈ items, other.1 = item.1 → other = item)
    (hnodup : ((tasks ++ pending).map Prod.fst).Nodup)
    (hordered : tasks.Pairwise fun item later =>
      later.2.isShared = true → item.2.isShared = true ∧ item.1 < later.1)
    (htrailing : ∀ item ∈ tasks, item.2.isShared = true → b.Trailing item.1)
    (hrun : (tasks.forM fun item => settleEntry item.1 item.2) b = .ok ((), b')) :
    Bears items pending b' := by
  -- Along the tasks, what has been entered of classes and pairs stays in front of what is to come.
  induction tasks generalizing b with
  | nil =>
    cases hrun
    exact h
  | cons item tasks ih =>
    obtain ⟨slot, e⟩ := item
    obtain ⟨⟨⟩, middle, hfirst, hrest⟩ := of_bind_ok hrun
    rw [List.cons_append, List.map_cons, List.nodup_cons] at hnodup
    rw [List.pairwise_cons] at hordered
    have hitem := hmem _ List.mem_cons_self
    have hothers : ∀ other ∈ tasks ++ pending, other.1 ≠ slot := by
      intro other hother hslot
      have hmap := List.mem_map_of_mem (f := Prod.fst) hother
      rw [hslot] at hmap
      exact hnodup.1 hmap
    obtain ⟨hmiddle, hagrees, hlater⟩ := h.settle (hpoints _ List.mem_cons_self) hitem
      (hunique _ hitem) hothers (htrailing _ List.mem_cons_self) hfirst
    refine ih hmiddle (fun other hother => hpoints other (List.mem_cons_of_mem _ hother))
      (fun other hother => hmem other (List.mem_cons_of_mem _ hother)) hnodup.2 hordered.2 ?_ hrest
    intro other hother hshared c j hc hj
    obtain ⟨hshared', hlt⟩ := hordered.1 other hother hshared
    exact Nat.lt_of_lt_of_le (hlater hshared' c j hc hj) hlt

/-! ## Seeding -/

section Seed

variable {entries : EntryPool}

/-- Slots that are taken in order put the first of its kind into the tables. -/
theorem foremost_forM_reserve {l : List (Nat × Entry)} {stop : Nat} (hcoherent : b.Coherent)
    (hb : b.Foremost) (hlaid : Slots.Laid b.constants.next l stop)
    (h : (l.forM fun item => reserve item.1 item.2) b = .ok ((), b')) : b'.Foremost := by
  induction l generalizing b with
  | nil =>
    cases h
    exact hb
  | cons item l ih =>
    obtain ⟨slot, e⟩ := item
    obtain ⟨rfl, hlaid⟩ := hlaid
    obtain ⟨⟨⟩, middle, hfirst, hrest⟩ := of_bind_ok h
    obtain ⟨hmiddle, hconstants⟩ := of_reserve_eq_ok hcoherent hfirst
    exact ih hmiddle (foremost_reserve hcoherent hb hfirst)
      (by rw [hconstants, next_push_holding]; exact hlaid) hrest

/-- When all slots are taken, only what points at others is pending. -/
theorem bears_of_reserve
    (h : (entries.toList.forM fun item => reserve item.1 item.2) empty = .ok ((), b)) :
    Bears entries.toList (tasks entries) b ∧ ∀ slot, b.Trailing slot := by
  obtain ⟨hcoherent, hlist⟩ := of_forM_reserve_eq_ok coherent_empty entries.laidOut h
  have hfind : ∀ i c, b.constants.find? i = some c ↔
      ∃ e, (i, e) ∈ entries.toList ∧ holding e = c := by
    intro i c
    rw [Slots.find?_eq_some_iff hcoherent.laidOut, hlist]
    simp [empty]
  refine ⟨⟨hcoherent, foremost_forM_reserve coherent_empty ?_ entries.laidOut h,
    fun item hitem => ?_,
    fun item hitem hsettled => ?_, fun i c hc hadded => ?_⟩, fun slot c j hc hj => ?_⟩
  · intro i c _ hc
    rw [Slots.find?_eq_some_iff coherent_empty.laidOut] at hc
    cases hc
  · obtain ⟨hmem, hpoints⟩ := mem_tasks.1 hitem
    exact (hfind _ _).2 ⟨item.2, hmem, Entry.holding_of_points hpoints⟩
  · have hpoints : ¬ item.2.points := fun hpoints => hsettled (mem_tasks.2 ⟨hitem, hpoints⟩)
    exact ⟨holding item.2,
      (hfind _ _).2 ⟨item.2, hitem, rfl⟩, by rw [spell_of_not_points hpoints]; rfl⟩
  · obtain ⟨e, he, -⟩ := (hfind i c).1 hc
    exact absurd (List.mem_map_of_mem (f := Prod.fst) he) hadded
  · -- Nothing that points at others is in its place yet.
    obtain ⟨e, -, rfl⟩ := (hfind _ c).1 (hcoherent.find?_of_slot? hj)
    cases e <;> exact hc.elim

/-- Once classes and pairs are settled, everything else that points at others is pending. -/
theorem Bears.settleShared
    (h : Bears entries.toList (tasks entries) b) (htrailing : ∀ slot, b.Trailing slot)
    (hrun : ((entries.toList.filter (·.2.isShared)).forM fun item => settleEntry item.1 item.2) b =
      .ok ((), b')) :
    Bears entries.toList (entries.toList.filter (·.2.isPointing)) b' := by
  refine h.settleAll (fun item hitem => .inl (List.mem_filter.1 hitem).2)
    (fun item hitem => (List.mem_filter.1 hitem).1) (fun item hitem other hother hslot => ?_)
    (nodup_tasks entries) ?_ (fun item _ _ => htrailing item.1) hrun
  · exact Prod.ext hslot
      (Slots.Laid.unique entries.laidOut (hslot ▸ hother : (item.1, other.2) ∈ _) hitem)
  · refine ((Slots.Laid.pairwise entries.laidOut).sublist List.filter_sublist).imp_of_mem ?_
    intro item later hitem _ hlt _
    exact ⟨(List.mem_filter.1 hitem).2, hlt⟩

/-- In the end nothing is pending. -/
theorem Bears.settlePointing
    (h : Bears entries.toList (entries.toList.filter (·.2.isPointing)) b)
    (hrun : ((entries.toList.filter (·.2.isPointing)).forM fun item =>
      settleEntry item.1 item.2) b = .ok ((), b')) :
    Bears entries.toList [] b' := by
  have hnot : ∀ e : Entry, e.isPointing = true → e.isShared ≠ true := by
    intro e he
    cases e <;> simp [Entry.isPointing, Entry.isShared] at he ⊢
  have hnodup := nodup_tasks entries
  rw [tasks, List.map_append, List.nodup_append] at hnodup
  rw [← List.append_nil (entries.toList.filter _)] at h
  refine h.settleAll (fun item hitem => .inr (List.mem_filter.1 hitem).2)
    (fun item hitem => (List.mem_filter.1 hitem).1) (fun item hitem other hother hslot => ?_)
    (by rw [List.append_nil]; exact hnodup.2.1) ?_ (fun item hitem hshared => ?_) hrun
  · exact Prod.ext hslot
      (Slots.Laid.unique entries.laidOut (hslot ▸ hother : (item.1, other.2) ∈ _) hitem)
  · refine ((Slots.Laid.pairwise entries.laidOut).sublist List.filter_sublist).imp_of_mem ?_
    intro item later _ hlater _ hshared
    exact absurd hshared (hnot _ (List.mem_filter.1 hlater).2)
  · exact absurd hshared (hnot _ (List.mem_filter.1 hitem).2)

/-- Seeding puts every entry into its slot. -/
theorem bears_of_seed (h : seed entries empty = .ok ((), b)) :
    Bears entries.toList [] b := by
  rw [seed_eq, tasks] at h
  simp only [List.forM_eq_forM, List.forM_append] at h
  obtain ⟨⟨⟩, held, hreserve, h⟩ := of_bind_ok h
  obtain ⟨⟨⟩, middle, hshared, hpointing⟩ := of_bind_ok h
  obtain ⟨hheld, htrailing⟩ := bears_of_reserve hreserve
  exact (hheld.settleShared htrailing hshared).settlePointing hpointing

end Seed

/-! ## No choice -/

/-- A look-up that adds nothing has found the slot in the tables. -/
theorem slot?_of_rests {c : Constant} {i : Index} (hc : c.IsShared) (h : intern c b = .ok (i, b)) :
    b.slot? c = some i := by
  rcases of_intern_eq_ok h with ⟨hslot, -⟩ | ⟨-, pushed, hpush, hb⟩
  · exact hslot
  · rw [hb, slot?_enter hc, if_pos rfl]

/-- Classes and pairs are spelled alike wherever the texts have the same slots. -/
theorem spell_of_texts {e : Entry} {c : Constant} (he : e.isShared = true)
    (h : spell e b = .ok (c, b))
    (htexts : ∀ s i, b.slot? (.utf8 s) = some i → b'.slot? (.utf8 s) = some i) :
    spell e b' = .ok (c, b') := by
  have hagain : ∀ {s : String} {i : Index}, text s b = .ok (i, b) → text s b' = .ok (i, b') :=
    fun htext => intern_of_slot? (c := .utf8 _) (htexts _ _ (slot?_of_rests trivial htext))
  cases e with
  | className name =>
    obtain ⟨i, middle, hname, h⟩ := of_bind_ok h
    cases h
    exact bind_of_ok (hagain hname)
  | nameAndType name descriptor =>
    obtain ⟨i, middle, hname, h⟩ := of_bind_ok h
    obtain ⟨j, last, hdescriptor, h⟩ := of_bind_ok h
    cases h
    have hagrees := ((asks_text descriptor).replays middle j b hdescriptor).1
    have hname' := ((asks_text name).replays b i middle hname).2 b hagrees
    cases hname.symm.trans hname'
    exact (bind_of_ok (hagain hname)).trans (bind_of_ok (hagain hdescriptor))
  | _ => cases he

/-- Only a text is spelled as a text. -/
theorem eq_utf8_of_spell_eq_ok {e : Entry} {s : String} (hb : b.Coherent)
    (h : spell e b = .ok (.utf8 s, b')) : e = .utf8 s := by
  by_cases he : e.points
  · exact ((writes_spell he b _ b' h hb).2.2 _ (.refl _)).1.elim
  · rw [spell_of_not_points he] at h
    cases e <;> cases h
    rfl

/-- There is nothing in the pool but what is in the slots of the entries. -/
def Full (items : List (Nat × Entry)) (b : PoolBuilder) : Prop :=
  ∀ i c, b.constants.find? i = some c → ∃ e, (i, e) ∈ items

/-- A constant that the tables have is what the entry in its slot is spelled with. -/
theorem Bears.of_slot? (h : Bears items [] b) (hfull : b.Full items) {c : Constant} {i : Index}
    (hslot : b.slot? c = some i) : ∃ e, (i.toNat, e) ∈ items ∧ spell e b = .ok (c, b) := by
  have hfind := h.coherent.find?_of_slot? hslot
  obtain ⟨e, he⟩ := hfull _ _ hfind
  obtain ⟨d, hd, hspell⟩ := h.placed _ he List.not_mem_nil
  cases hfind.symm.trans hd
  exact ⟨e, he, hspell⟩

/-- Two pools with the same entries have the same slot for a constant that is spelled alike in
both. -/
theorem Bears.slot?_of_alike (h : Bears items [] b) (hfull : b.Full items)
    (h' : Bears items [] b') (hfull' : b'.Full items) {c : Constant}
    (halike : ∀ e, spell e b = .ok (c, b) ↔ spell e b' = .ok (c, b')) {i : Index}
    (hslot : b.slot? c = some i) : b'.slot? c = some i := by
  have hshared := isShared_of_slot? hslot
  -- A slot of one pool is not before that of the other.
  have hle : ∀ {b b' : PoolBuilder} {i : Index}, Bears items [] b → b.Full items →
      Bears items [] b' → (∀ e, spell e b = .ok (c, b) → spell e b' = .ok (c, b')) →
      b.slot? c = some i → ∃ j, b'.slot? c = some j ∧ j.toNat ≤ i.toNat := by
    intro b b' i h hfull h' halike hslot
    obtain ⟨e, he, hspell⟩ := h.of_slot? hfull hslot
    obtain ⟨d, hd, hspell'⟩ := h'.placed _ he List.not_mem_nil
    cases (halike e hspell).symm.trans hspell'
    exact h'.foremost _ _ hshared hd
  obtain ⟨j, hj, hji⟩ := hle h hfull h' (fun e => (halike e).1) hslot
  obtain ⟨k, hk, hkj⟩ := hle h' hfull' h (fun e => (halike e).2) hj
  cases hslot.symm.trans hk
  rw [hj, UInt16.toNat_inj.1 (Nat.le_antisymm hji hkj)]

/-- Two pools with the same entries have the same tables. -/
theorem Bears.agrees (h : Bears items [] b) (hfull : b.Full items) (h' : Bears items [] b')
    (hfull' : b'.Full items) : b.Agrees b' := by
  have htexts : ∀ {b b' : PoolBuilder}, Bears items [] b → b.Full items → Bears items [] b' →
      b'.Full items → ∀ s i, b.slot? (.utf8 s) = some i → b'.slot? (.utf8 s) = some i := by
    intro b b' h hfull h' hfull' s i hslot
    -- A text is spelled without a look into the tables.
    refine h.slot?_of_alike hfull h' hfull' (fun e => ⟨fun he => ?_, fun he => ?_⟩) hslot
    · rw [eq_utf8_of_spell_eq_ok h.coherent he]
      rfl
    · rw [eq_utf8_of_spell_eq_ok h'.coherent he]
      rfl
  intro c i hslot
  have hshared := isShared_of_slot? hslot
  -- With the texts in the same slots, classes and pairs are spelled alike.
  refine h.slot?_of_alike hfull h' hfull' (fun e => ?_) hslot
  by_cases he : e.points
  · exact ⟨fun hspell => spell_of_texts (isShared_of_spell_eq_ok he hspell hshared) hspell
        (htexts h hfull h' hfull'),
      fun hspell => spell_of_texts (isShared_of_spell_eq_ok he hspell hshared) hspell
        (htexts h' hfull' h hfull)⟩
  · rw [spell_of_not_points he]
    exact ⟨fun hspell => by cases hspell; rfl, fun hspell => by cases hspell; rfl⟩

/-- Two pools with the same entries have the same constants. -/
theorem Bears.constants_eq (h : Bears items [] b) (hfull : b.Full items) (h' : Bears items [] b')
    (hfull' : b'.Full items) : b.constants = b'.constants := by
  have hsub : ∀ {b b' : PoolBuilder}, Bears items [] b → b.Full items → Bears items [] b' →
      b'.Full items → b.constants.toList <+: b'.constants.toList := by
    intro b b' h hfull h' hfull'
    refine Slots.Laid.prefix_of_subset h.coherent.laidOut h'.coherent.laidOut fun item hitem => ?_
    have hfind := (Slots.find?_eq_some_iff h.coherent.laidOut).2 hitem
    obtain ⟨e, he⟩ := hfull _ _ hfind
    obtain ⟨c, hc, hspell⟩ := h.placed _ he List.not_mem_nil
    obtain ⟨d, hd, hspell'⟩ := h'.placed _ he List.not_mem_nil
    have hagain := ((asks_spell e).replays b c b hspell).2 b' (h.agrees hfull h' hfull')
    cases hfind.symm.trans hc
    cases hagain.symm.trans hspell'
    exact (Slots.find?_eq_some_iff h'.coherent.laidOut).1 hd
  have hprefix := hsub h hfull h' hfull'
  have hlist := hprefix.eq_of_length_le (hsub h' hfull' h hfull).length_le
  exact Slots.ext_toList hlist
    (Slots.Laid.stop_unique h.coherent.laidOut (hlist ▸ h'.coherent.laidOut))

end PoolBuilder

end Crosswalk
