import Crosswalk.Proofs.Pool.Growth
import Crosswalk.Proofs.Pool.Reseeding

/-!
# Whether there is room

Before anything is added, the entries of a class take the slots they came from. Then they get their
constants, and what they point at is shared or added; classes and pairs come first, since the others
share them. All the time the entries that still wait count as if they had been settled, which is why
the order makes no difference: in the end the pool has the slots of its entries, and one more for
each part of what has been asked for that no entry provides (`counts_seed`). Entries that bring
along whatever they point at are seeded without a new constant (`exists_seed`).
-/

namespace Crosswalk

open PoolBuilder (Need)

namespace EntryPool

/-- Everything that the entries and a writer with the given needs ask for, part by part. -/
def required (es : EntryPool) (needs : List Need) : List Need :=
  (es.toList.flatMap (fun item => item.2.needs) ++ needs).flatMap Need.parts

instance (es : EntryPool) (n : Need) : Decidable (es.Provides n) :=
  decidable_of_iff (n.entry ∈ es.toList.map Prod.snd) (by simp [Provides])

/-- The different texts, classes and pairs that are required and that no entry provides. -/
def lacking (es : EntryPool) (needs : List Need) : Finset Need :=
  (es.required needs).toFinset.filter fun n => ¬ es.Provides n

/-- What is lacking is what is required and not provided. -/
theorem mem_lacking {es : EntryPool} {needs : List Need} {n : Need} :
    n ∈ es.lacking needs ↔ n ∈ es.required needs ∧ ¬ es.Provides n := by
  rw [lacking, Finset.mem_filter, List.mem_toFinset]

end EntryPool

namespace PoolBuilder

variable {α : Type} {b b' : PoolBuilder} {e : Entry} {n : Need} {needs : List Need}
  {promised : Need → Prop} {es : EntryPool}

/-! ## Taking all slots -/

/-- Nothing is known at first, so nothing is wrong. -/
theorem rooted_empty : empty.Rooted where
  limit := by decide
  before s i h := by simp [slot?, empty] at h
  distinct s t i h := by simp [slot?, empty] at h
  spelled c i h := by cases c <;> simp [slot?, empty] at h

/-- Nothing is known at first. -/
theorem not_knows_empty : ¬ empty.Knows n := by
  intro h
  obtain ⟨c, i, -, hi⟩ := knows_iff.1 h
  cases c <;> simp [slot?, empty] at hi

/-- Only a text can be asked for as soon as its slot is taken. -/
def Need.heldBy (n : Need) (e : Entry) : Prop :=
  ¬ e.points ∧ n.entry = e

/-- The width of all entries together. -/
def widths (items : List (Nat × Entry)) : Nat :=
  (items.map fun item => Wide.width item.2).sum

/-- Entries have taken the next slots, and the texts among them are known. -/
structure Reserves (items : List (Nat × Entry)) (b b' : PoolBuilder) : Prop where
  rooted : b'.Rooted
  knows : ∀ n, b'.Knows n ↔ b.Knows n ∨ ∃ item ∈ items, n.heldBy item.2
  next : b'.constants.next = b.constants.next + widths items

/-- An entry takes the next slot, and holds it. -/
theorem reserves_of_reserve (hb : b.Rooted) (h : reserve b.constants.next e b = .ok ((), b')) :
    Reserves [(b.constants.next, e)] b b' := by
  obtain ⟨⟨i, pushed⟩, hpush, hreserve⟩ := bind_eq_ok_iff.1 h
  obtain ⟨hi, hpushed, hlimit⟩ := of_push_eq_ok hpush
  rw [← hi, UInt16.ofNat_toNat] at hreserve
  have hnext : pushed.constants.next = b.constants.next + Wide.width e := by
    rw [hpushed, next_push_holding]
  have hpos := LawfulWide.width_pos e
  have hle : b.constants.next ≤ pushed.constants.next := by omega
  have hlt : i.toNat < pushed.constants.next := by omega
  by_cases htext : ∃ s, e = .utf8 s
  · obtain ⟨s, rfl⟩ := htext
    cases hreserve
    obtain ⟨hrooted, hknows⟩ := hb.tells (n := .text s) (tells_insertIfNew hpush) rfl hle
      (Nat.le_of_lt_succ hlimit) fun _ _ => ⟨hi, hlt⟩
    refine ⟨hrooted, fun m => ?_, hnext⟩
    rw [hknows]
    cases m <;> simp [Need.heldBy, Need.entry, Entry.points, Entry.isShared, Entry.isPointing]
  · -- Of anything else only the place is held, and no table is told of it.
    have hsame : b' = pushed := by
      cases e <;> first
        | exact absurd ⟨_, rfl⟩ htext
        | exact (congrArg Prod.snd (Except.ok.inj hreserve)).symm
    subst hsame
    have hslots := slot?_of_push_eq_ok hpush
    obtain ⟨hrooted, hknows⟩ := hb.of_agrees (fun d j hd => (hslots d).trans hd)
      (fun d j hd => (hslots d).symm.trans hd) hle (Nat.le_of_lt_succ hlimit)
    refine ⟨hrooted, fun m => ?_, hnext⟩
    rw [hknows, or_iff_left]
    rintro ⟨item, hitem, hpoints, hm⟩
    obtain rfl := List.mem_singleton.1 hitem
    cases m with
    | text s => exact htext ⟨s, hm.symm⟩
    | className name => exact hpoints (.inl (hm ▸ rfl))
    | pair name descriptor => exact hpoints (.inl (hm ▸ rfl))

/-- An entry is only refused if it has no room. -/
theorem of_reserve_eq_error {slot : Nat} {o : Overflow} (h : reserve slot e b = .error o) :
    o.Proper ∧ slotLimit < b.constants.next + Wide.width e := by
  have hwidth : (holding e).width = Wide.width e := width_holding e
  rw [← hwidth]
  unfold reserve at h
  cases hpush : push (holding e) b with
  | error o' =>
    rw [hpush] at h
    cases h
    exact of_push_eq_error hpush
  | ok pushed =>
    rw [hpush] at h
    cases e <;> cases h

/-- Entries take as many slots as they are wide, or there is no room for them. -/
theorem counts_forM_reserve {l : List (Nat × Entry)} {stop : Nat} (hb : b.Rooted)
    (hlaid : Slots.Laid b.constants.next l stop) :
    (∀ b', (l.forM fun item => reserve item.1 item.2) b = .ok ((), b') → Reserves l b b') ∧
      ∀ o, (l.forM fun item => reserve item.1 item.2) b = .error o →
        o.Proper ∧ slotLimit < b.constants.next + widths l := by
  -- The first entry takes its slots, and the others are counted from the next one on.
  induction l generalizing b with
  | nil =>
    constructor
    · intro b' h
      cases h
      exact ⟨hb, fun n => by simp, rfl⟩
    · intro o h
      cases h
  | cons item l ih =>
    obtain ⟨slot, e⟩ := item
    obtain ⟨rfl, hlaid⟩ := hlaid
    have hwidths : widths ((b.constants.next, e) :: l) = Wide.width e + widths l := rfl
    have hmiddle : ∀ {middle}, Reserves [(b.constants.next, e)] b middle →
        Slots.Laid middle.constants.next l stop := fun hreserve => by
      rw [hreserve.next]
      exact hlaid
    constructor
    · intro b' h
      obtain ⟨⟨⟩, middle, hfirst, hrest⟩ := of_bind_ok h
      have hreserve := reserves_of_reserve hb hfirst
      have hreserves := (ih hreserve.rooted (hmiddle hreserve)).1 b' hrest
      refine ⟨hreserves.rooted, fun n => ?_, ?_⟩
      · rw [hreserves.knows, hreserve.knows, List.exists_mem_cons_iff, or_assoc]
        simp
      · rw [hreserves.next, hreserve.next, hwidths]
        show b.constants.next + (Wide.width e + 0) + widths l = _
        omega
    · intro o h
      rw [hwidths]
      cases hfirst : reserve b.constants.next e b with
      | error o' =>
        cases (bind_of_error hfirst).symm.trans h
        obtain ⟨hproper, hfull⟩ := of_reserve_eq_error hfirst
        exact ⟨hproper, by omega⟩
      | ok next =>
        obtain ⟨⟨⟩, middle⟩ := next
        have hreserve := reserves_of_reserve hb hfirst
        obtain ⟨hproper, hfull⟩ :=
          (ih hreserve.rooted (hmiddle hreserve)).2 o ((bind_of_ok hfirst).symm.trans h)
        have hnext : middle.constants.next = b.constants.next + (Wide.width e + 0) := hreserve.next
        exact ⟨hproper, by omega⟩

/-! ## Settling -/

/-- An entry that points at others is spelled as something shared only if it can be asked for. -/
theorem exists_need_of_spell {c : Constant} (he : e.points) (h : spell e b = .ok (c, b'))
    (hc : c.IsShared) : c.Pointing ∧ ∃ n : Need, n.entry = e := by
  have hshared := isShared_of_spell_eq_ok he h hc
  cases e with
  | className name =>
    obtain ⟨i, middle, -, h⟩ := of_bind_ok h
    cases h
    exact ⟨trivial, .className name, rfl⟩
  | nameAndType name descriptor =>
    obtain ⟨i, middle, -, h⟩ := of_bind_ok h
    obtain ⟨j, last, -, h⟩ := of_bind_ok h
    cases h
    exact ⟨trivial, .pair name descriptor, rfl⟩
  | _ => cases hshared

/-- A class or a pair is known once it is settled. -/
theorem of_settleEntry_eq_ok {slot : Nat} (he : e.points)
    (h : settleEntry slot e b = .ok ((), b')) :
    b.Agrees b' ∧ ∀ n : Need, n.entry = e → b'.Knows n := by
  obtain ⟨c, middle, hspell, hrest⟩ := of_bind_ok h
  obtain ⟨last, hlast, hshares, -⟩ := exists_share_settle slot c middle
  cases hlast.symm.trans hrest
  obtain ⟨hagrees, hagain⟩ := (asks_spell e).replays b c middle hspell
  refine ⟨hagrees.trans hshares.agrees, ?_⟩
  rintro n rfl
  have hshared := Need.isShared_of_spell hspell
  obtain ⟨j, hj⟩ := hshares.told hshared (exists_need_of_spell he hspell hshared).1
  exact knows_iff.2 ⟨c, j, hagain b' hshares.agrees, hj⟩

/-- An entry takes a slot for every part that is missing of what it points at. Its own slot it has
already, and what can be asked for by its constant has been promised. -/
theorem counts_settleEntry (slot : Nat) (hb : b.Rooted) (he : e.points)
    (hkept : ∀ m ∈ e.needs.flatMap Need.parts, promised m → b.Knows m)
    (hpromised : ∀ n : Need, n.entry = e → promised n) :
    Counts promised (e.needs.flatMap Need.parts) b (settleEntry slot e b) := by
  have hspell := (asks_spell e).counts hb hkept
  rw [← List.append_nil (e.needs.flatMap Need.parts)]
  refine hspell.bind fun c middle hrun hadds => ?_
  obtain ⟨last, hlast, hshares, hnext⟩ := exists_share_settle slot c middle
  have hlimit : last.constants.next ≤ slotLimit := hnext.symm ▸ hadds.rooted.limit
  rw [hlast]
  refine ⟨fun a b' h => ?_, fun o h => by cases h⟩
  cases h
  have hnext' :
      last.constants.next = middle.constants.next + (missing promised middle []).card := by
    simp [missing, hnext]
  by_cases hc : c.IsShared
  · obtain ⟨hpointing, n, hn⟩ := exists_need_of_spell he hrun hc
    have hagain : spell n.entry middle = .ok (c, middle) := by
      rw [hn]
      exact ((asks_spell e).replays b c middle hrun).2 middle (.refl _)
    obtain ⟨hrooted, hknows⟩ := hadds.rooted.tells
      ⟨hshares.agrees, hshares.only, hshares.told hc hpointing⟩ hagain hnext.ge hlimit
      fun s hs => by cases hs; exact hpointing.elim
    refine ⟨hrooted, hshares.agrees, fun m => ?_, hnext'⟩
    rw [Covers, Covers, hknows, or_iff_left List.not_mem_nil]
    constructor
    · rintro (hm | hm | rfl)
      · exact .inl hm
      · exact .inr hm
      · exact .inl (hpromised m hn)
    · exact Or.imp id .inl
  · -- Nothing but classes and pairs is shared, so the tables are as before.
    have hback : last.Agrees middle := by
      intro d j hj
      rcases hshares.only d j hj with hold | ⟨rfl, -⟩
      · exact hold
      · exact absurd (isShared_of_slot? hj) hc
    obtain ⟨hrooted, hknows⟩ := hadds.rooted.of_agrees hshares.agrees hback hnext.ge hlimit
    refine ⟨hrooted, hshares.agrees, fun m => ?_, hnext'⟩
    rw [Covers, Covers, hknows, or_iff_left List.not_mem_nil]

/-- What is asked for when entries are settled. -/
def settlingNeeds (items : List (Nat × Entry)) : List Need :=
  items.flatMap fun item => item.2.needs.flatMap Need.parts

/-- Entries that get their constants one after the other take a slot for every part that is missing
of what they point at. -/
theorem counts_forM_settleEntry {l : List (Nat × Entry)} (hb : b.Rooted)
    (hpoints : ∀ item ∈ l, item.2.points)
    (hkept : ∀ m ∈ settlingNeeds l, promised m → b.Knows m)
    (hpromised : ∀ item ∈ l, ∀ n : Need, n.entry = item.2 → promised n) :
    Counts promised (settlingNeeds l) b ((l.forM fun item => settleEntry item.1 item.2) b) := by
  induction l generalizing b with
  | nil => exact .pure hb ()
  | cons item l ih =>
    rw [settlingNeeds, List.flatMap_cons] at hkept ⊢
    refine (counts_settleEntry item.1 hb (hpoints _ List.mem_cons_self)
      (fun m hm => hkept m (List.mem_append_left _ hm))
      (hpromised _ List.mem_cons_self)).bind fun _ middle _ hadds => ?_
    exact ih hadds.rooted (fun other hother => hpoints other (List.mem_cons_of_mem _ hother))
      (fun m hm hp => (hkept m (List.mem_append_right _ hm) hp).mono hadds.agrees)
      fun other hother => hpromised other (List.mem_cons_of_mem _ hother)

/-- Once all entries have been settled, each of them is known. -/
theorem of_forM_settleEntry_eq_ok {l : List (Nat × Entry)} (hpoints : ∀ item ∈ l, item.2.points)
    (h : (l.forM fun item => settleEntry item.1 item.2) b = .ok ((), b')) :
    b.Agrees b' ∧ ∀ item ∈ l, ∀ n : Need, n.entry = item.2 → b'.Knows n := by
  induction l generalizing b with
  | nil =>
    cases h
    exact ⟨.refl _, fun item hitem => absurd hitem List.not_mem_nil⟩
  | cons item l ih =>
    obtain ⟨⟨⟩, middle, hfirst, hrest⟩ := of_bind_ok h
    obtain ⟨hagrees, hknown⟩ := of_settleEntry_eq_ok (hpoints _ List.mem_cons_self) hfirst
    obtain ⟨hagrees', hknown'⟩ := ih (fun other hother =>
      hpoints other (List.mem_cons_of_mem _ hother)) hrest
    refine ⟨hagrees.trans hagrees', fun other hother n hn => ?_⟩
    rcases List.mem_cons.1 hother with rfl | hother
    · exact (hknown n hn).mono hagrees'
    · exact hknown' other hother n hn

/-! ## Seeding -/

/-- Only texts are asked for when a class or a pair is settled. -/
theorem exists_text_of_needs (he : e.isShared = true) (hn : n ∈ e.needs.flatMap Need.parts) :
    ∃ s, n = .text s := by
  cases e with
  | className name =>
    exact ⟨name, by simpa [Entry.needs, Need.parts] using hn⟩
  | nameAndType name descriptor =>
    have hor : n = .text name ∨ n = .text descriptor := by
      simpa [Entry.needs, Need.parts] using hn
    exact hor.elim (⟨_, ·⟩) (⟨_, ·⟩)
  | _ => cases he

/-- An entry that does not point needs nothing. -/
theorem needs_of_not_points (h : ¬ e.points) : e.needs = [] := by
  cases e <;> first
    | rfl
    | exact absurd (by simp [Entry.points, Entry.isShared, Entry.isPointing]) h

/-- Whatever points at nothing needs nothing, so it is not left out. -/
theorem mem_settlingNeeds_tasks : n ∈ settlingNeeds (tasks es) ↔
    n ∈ (es.toList.flatMap fun item => item.2.needs).flatMap Need.parts := by
  rw [List.flatMap_assoc, settlingNeeds, List.mem_flatMap, List.mem_flatMap]
  constructor
  · rintro ⟨item, hitem, hn⟩
    exact ⟨item, (mem_tasks.1 hitem).1, hn⟩
  · rintro ⟨item, hitem, hn⟩
    by_cases hpoints : item.2.points
    · exact ⟨item, mem_tasks.2 ⟨hitem, hpoints⟩, hn⟩
    · rw [needs_of_not_points hpoints] at hn
      cases hn

section Seed

variable {held : PoolBuilder} (hheld : Reserves es.toList empty held)

include hheld

/-- While the slots are only taken, nothing is known but the texts. -/
theorem knows_held_iff : held.Knows n ↔ ∃ item ∈ es.toList, n.heldBy item.2 := by
  rw [hheld.knows, or_iff_right not_knows_empty]

/-- A text that is provided is known as soon as its slot is taken. -/
theorem knows_text_of_provides {s : String} (h : es.Provides (.text s)) :
    held.Knows (.text s) := by
  obtain ⟨i, hi⟩ := h
  refine (knows_held_iff hheld).2 ⟨_, hi, ?_, rfl⟩
  simp [Need.entry, Entry.points, Entry.isShared, Entry.isPointing]

/-- When classes and pairs are settled, everything that the entries provide is known. -/
theorem knows_of_settled
    (h : ((es.toList.filter (·.2.isShared)).forM fun item => settleEntry item.1 item.2) held =
      .ok ((), b)) (hn : es.Provides n) : b.Knows n := by
  obtain ⟨hagrees, hknown⟩ := of_forM_settleEntry_eq_ok
    (fun item hitem => .inl (List.mem_filter.1 hitem).2) h
  cases n with
  | text s => exact (knows_text_of_provides hheld hn).mono hagrees
  | className name =>
    obtain ⟨i, hi⟩ := hn
    exact hknown _ (List.mem_filter.2 ⟨hi, rfl⟩) _ rfl
  | pair name descriptor =>
    obtain ⟨i, hi⟩ := hn
    exact hknown _ (List.mem_filter.2 ⟨hi, rfl⟩) _ rfl

/-- Settling takes a slot for every part that is missing of what the entries point at, and in the
end everything that they provide is known. -/
theorem counts_tasks :
    Counts es.Provides (settlingNeeds (tasks es)) held
        ((tasks es).forM (fun item => settleEntry item.1 item.2) held) ∧
      ∀ b, (tasks es).forM (fun item => settleEntry item.1 item.2) held = .ok ((), b) →
        ∀ n, es.Provides n → b.Knows n := by
  have hpromised : ∀ item ∈ es.toList, ∀ n : Need, n.entry = item.2 → es.Provides n :=
    fun item hitem n hn => ⟨item.1, hn ▸ hitem⟩
  rw [tasks, settlingNeeds, List.flatMap_append]
  simp only [List.forM_eq_forM, List.forM_append]
  constructor
  · refine (counts_forM_settleEntry hheld.rooted
      (fun item hitem => .inl (List.mem_filter.1 hitem).2)
      (fun m hm hp => ?_) fun item hitem => hpromised item (List.mem_filter.1 hitem).1).bind
        fun _ middle hshared hadds => ?_
    · obtain ⟨item, hitem, hm⟩ := List.mem_flatMap.1 hm
      obtain ⟨s, rfl⟩ := exists_text_of_needs (List.mem_filter.1 hitem).2 hm
      exact knows_text_of_provides hheld hp
    · exact counts_forM_settleEntry hadds.rooted
        (fun item hitem => .inr (List.mem_filter.1 hitem).2)
        (fun m _ hp => knows_of_settled hheld hshared hp)
        fun item hitem => hpromised item (List.mem_filter.1 hitem).1
  · intro b h n hn
    obtain ⟨⟨⟩, middle, hshared, hpointing⟩ := of_bind_ok h
    refine (knows_of_settled hheld hshared hn).mono (of_forM_settleEntry_eq_ok ?_ hpointing).1
    exact fun item hitem => .inr (List.mem_filter.1 hitem).2

/-- What is missing once the slots are taken is what no entry provides. -/
theorem missing_held (needs : List Need) :
    missing es.Provides held (settlingNeeds (tasks es) ++ needs.flatMap Need.parts) =
      es.lacking needs := by
  ext n
  have hcovers : Covers es.Provides held n ↔ es.Provides n := by
    rw [Covers, or_iff_left_of_imp]
    intro hn
    obtain ⟨item, hitem, -, hentry⟩ := (knows_held_iff hheld).1 hn
    exact ⟨item.1, hentry ▸ hitem⟩
  rw [mem_missing, EntryPool.mem_lacking, hcovers, EntryPool.required, List.flatMap_append,
    List.mem_append, List.mem_append, mem_settlingNeeds_tasks]

end Seed

/-- What a writer leaves behind that starts from seeded entries. -/
structure Filled (es : EntryPool) (needs : List Need) (b : PoolBuilder) : Prop where
  limit : b.constants.next ≤ slotLimit
  next : b.constants.next = 1 + es.taken + (es.lacking needs).card
  knows : ∀ n ∈ es.required needs, b.Knows n

/-- Entries that are seeded and a writer after them take the slots of the entries and one for each
part of what is asked for that no entry provides, or there is no room for as many. -/
theorem counts_seed (es : EntryPool) {w : Build α} (hw : Asks w needs) :
    (∀ a b, (seed es >>= fun _ => w) empty = .ok (a, b) → Filled es needs b) ∧
      ∀ o, (seed es >>= fun _ => w) empty = .error o →
        o.Proper ∧ slotLimit < 1 + es.taken + (es.lacking needs).card := by
  rw [seed_eq, bind_assoc]
  have hreserve := counts_forM_reserve rooted_empty es.laidOut
  cases hrun : (es.toList.forM fun item => reserve item.1 item.2) empty with
  | error o =>
    rw [bind_of_error hrun]
    obtain ⟨hproper, hfull⟩ := hreserve.2 o hrun
    refine ⟨fun a b h => (by cases h), fun o' h => ?_⟩
    cases h
    exact ⟨hproper, Nat.lt_of_lt_of_le hfull (Nat.le_add_right _ _)⟩
  | ok next =>
    obtain ⟨⟨⟩, held⟩ := next
    have hheld := hreserve.1 held hrun
    obtain ⟨htasks, hknown⟩ := counts_tasks hheld
    have hcounts := htasks.bind (f := fun _ => w) fun _ middle hsettle hadds =>
      hw.counts hadds.rooted fun m _ hm => hknown middle hsettle m hm
    have hnext : held.constants.next = 1 + es.taken := hheld.next
    rw [bind_of_ok hrun]
    refine ⟨fun a b h => ?_, fun o h => ?_⟩
    · have hadds := hcounts.ok a b h
      obtain ⟨⟨⟩, middle, hsettle, hrest⟩ := of_bind_ok h
      refine ⟨hadds.rooted.limit, ?_, fun n hn => ?_⟩
      · rw [hadds.next, missing_held hheld, hnext]
      · rw [EntryPool.required, List.flatMap_append, List.mem_append,
          ← mem_settlingNeeds_tasks, ← List.mem_append] at hn
        rcases (hadds.covers n).2 (.inr hn) with hprovided | hn
        · exact (hknown middle hsettle n hprovided).mono (hw.replays middle a b hrest).1
        · exact hn
    · have hfull := hcounts.error o h
      rwa [missing_held hheld, hnext] at hfull

/-- Entries that bring along whatever they point at lack nothing that they provide. -/
theorem lacking_eq_empty (hclosed : es.Closed) (hneeds : ∀ n ∈ needs, es.Provides n) :
    es.lacking needs = ∅ := by
  have hall : ∀ n ∈ es.toList.flatMap (fun item => item.2.needs) ++ needs, es.Provides n := by
    intro n hn
    rcases List.mem_append.1 hn with hn | hn
    · obtain ⟨item, hitem, hn⟩ := List.mem_flatMap.1 hn
      exact hclosed item hitem n hn
    · exact hneeds n hn
  ext m
  rw [EntryPool.mem_lacking, EntryPool.required, List.mem_flatMap]
  refine iff_of_false ?_ (Finset.notMem_empty m)
  rintro ⟨⟨n, hn, hm⟩, hnot⟩
  obtain ⟨i, hi⟩ := hall n hn
  rcases Need.mem_parts.1 hm with hm | rfl
  · exact hnot (hclosed _ hi m hm)
  · exact hnot ⟨i, hi⟩

/-- Entries that bring along whatever they point at are seeded without a constant besides. -/
theorem exists_seed (hclosed : es.Closed) (hroom : es.next ≤ slotLimit) :
    ∃ b, seed es empty = .ok ((), b) ∧ b.constants.next = es.next := by
  obtain ⟨hok, herror⟩ := counts_seed es (.pure ())
  rw [bind_pure_unit, lacking_eq_empty hclosed (List.forall_mem_nil _), Finset.card_empty,
    Nat.add_zero, ← es.laidOut.next_eq] at herror
  rw [bind_pure_unit] at hok
  cases hrun : seed es empty with
  | error o => exact absurd (herror o hrun).2 (Nat.not_lt_of_le hroom)
  | ok built =>
    obtain ⟨⟨⟩, b⟩ := built
    have hfilled := hok () b hrun
    refine ⟨b, rfl, ?_⟩
    rw [hfilled.next, lacking_eq_empty hclosed (List.forall_mem_nil _), es.laidOut.next_eq]
    rfl

/-- What is known can be found. -/
theorem Coherent.meets_of_knows (hb : b.Coherent) (h : b.Knows n) : b.constants.Meets n := by
  obtain ⟨c, i, hspell, hi⟩ := knows_iff.1 h
  refine ⟨i.toNat, c, hb.find?_of_slot? hi, ofConstant_of_spell_eq_ok hb ?_ hspell⟩
  cases n <;> exact trivial

end PoolBuilder

end Crosswalk
