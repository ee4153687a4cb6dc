import Crosswalk.Proofs.Pool.Entries
import Crosswalk.Proofs.Pool.Growth

/-!
# Seeding what has been read

Entries that have been read from a pool bring everything along that they point at
(`EntryPool.closed_of_ofPool`), and once they are seeded, whatever else could be looked up in the
pool they are from can be asked for without a new constant (`Bears.knows`). A pool that has been
built bears the entries that are read from it, as if they had been seeded (`Bears.reread`).
-/

namespace Crosswalk

open PoolBuilder (Need)

/-! ## What can be looked up -/

/-- There is a constant in the pool that answers. -/
def ConstantPool.Meets (p : ConstantPool) (n : Need) : Prop :=
  ∃ i c, p.find? i = some c ∧ Entry.ofConstant p c = .ok n.entry

namespace ConstantPool

variable {p : ConstantPool}

/-- A text that is looked up is an entry in its slot. -/
theorem entry_of_utf8 {i : Index} {s : String} (h : p.utf8 i = .ok s) :
    ∃ c, p.find? i.toNat = some c ∧ Entry.ofConstant p c = .ok (.utf8 s) :=
  ⟨_, utf8_eq_ok_iff.1 h, rfl⟩

/-- A slot that leads to a class has an entry for it. -/
theorem entry_of_className {i : Index} {s : String} (h : p.className i = .ok s) :
    ∃ c, p.find? i.toNat = some c ∧ Entry.ofConstant p c = .ok (.className s) := by
  obtain ⟨n, hn, hs⟩ := className_eq_ok_iff.1 h
  exact ⟨_, hn, (Entry.Leads.className (utf8_eq_ok_iff.2 hs)).ofConstant_eq⟩

/-- A slot that leads to a pair has an entry for it. -/
theorem entry_of_nameAndType {i : Index} {s t : String} (h : p.nameAndType i = .ok (s, t)) :
    ∃ c, p.find? i.toNat = some c ∧ Entry.ofConstant p c = .ok (.nameAndType s t) := by
  obtain ⟨n, d, hc, hs, ht⟩ := nameAndType_eq_ok_iff.1 h
  exact ⟨_, hc,
    (Entry.Leads.nameAndType (utf8_eq_ok_iff.2 hs) (utf8_eq_ok_iff.2 ht)).ofConstant_eq⟩

/-- A text that is found is provided. -/
theorem meets_text {i : Index} {s : String} (h : p.utf8 i = .ok s) : p.Meets (.text s) :=
  ⟨i.toNat, entry_of_utf8 h⟩

theorem meets_className {i : Index} {s : String} (h : p.className i = .ok s) :
    p.Meets (.className s) :=
  ⟨i.toNat, entry_of_className h⟩

theorem meets_pair {i : Index} {s t : String} (h : p.nameAndType i = .ok (s, t)) :
    p.Meets (.pair s t) :=
  ⟨i.toNat, entry_of_nameAndType h⟩

end ConstantPool

/-- What an entry points at is looked up when the entry is read. -/
theorem Entry.meets_of_ofConstant {p : ConstantPool} {c : Constant} {e : Entry}
    (h : ofConstant p c = .ok e) : ∀ n ∈ e.needs, p.Meets n := by
  have hmember : ∀ {i j : Index} {m : MemberRef}, member p i j = .ok m →
      ∀ n ∈ m.needs, p.Meets n := by
    intro i j m hm
    obtain ⟨howner, hpair⟩ := member_eq_ok_iff.1 hm
    exact List.forall_mem_cons.2 ⟨ConstantPool.meets_className howner,
      List.forall_mem_singleton.2 (ConstantPool.meets_pair hpair)⟩
  cases ofConstant_eq_ok_iff.1 h with
  | utf8 | rawUtf8 | integer | float | long | double | rawString | fieldHandle | methodHandle =>
    exact List.forall_mem_nil _
  | className htext | string htext | methodType htext | moduleName htext | packageName htext =>
    exact List.forall_mem_singleton.2 (ConstantPool.meets_text htext)
  | fieldRef hm | methodRef _ hm => exact hmember hm
  | nameAndType hname hdescriptor =>
    exact List.forall_mem_cons.2 ⟨ConstantPool.meets_text hname,
      List.forall_mem_singleton.2 (ConstantPool.meets_text hdescriptor)⟩
  | dynamic _ hpair | invokeDynamic _ hpair =>
    exact List.forall_mem_singleton.2 (ConstantPool.meets_pair hpair)

namespace EntryPool

/-- There is an entry that answers. -/
def Provides (es : EntryPool) (n : Need) : Prop :=
  ∃ i, (i, n.entry) ∈ es.toList

/-- Whatever the entries need is among them. -/
def Closed (es : EntryPool) : Prop :=
  ∀ item ∈ es.toList, ∀ n ∈ item.2.needs, es.Provides n

section OfPool

variable {p : ConstantPool} {es : EntryPool} (hp : p.LaidOut 1) (h : ofPool p = .ok es)

include hp h

/-- What can be looked up in a pool is among its entries. -/
theorem provides_of_meets {n : Need} (hn : p.Meets n) : es.Provides n := by
  obtain ⟨i, c, hc, hread⟩ := hn
  obtain ⟨-, hentries⟩ := of_ofPool_eq_ok hp h
  obtain ⟨⟨i', e⟩, he, rfl, hread'⟩ := exists_of_forall₂_left hentries
    ((Slots.find?_eq_some_iff hp).1 hc)
  cases hread.symm.trans hread'
  exact ⟨_, he⟩

/-- The entries have the slots of the constants. -/
theorem slots_of_ofPool : p.toList.map Prod.fst = es.toList.map Prod.fst := by
  obtain ⟨-, hentries⟩ := of_ofPool_eq_ok hp h
  exact map_eq_map_of_forall₂ (hentries.imp fun _ _ h => h.1.symm)

/-- What is found by slot is the entry of the constant that is found there. -/
theorem find?_of_ofPool (slot : Nat) :
    (p.find? slot).map (Entry.ofConstant p) = (es.find? slot).map .ok := by
  obtain ⟨-, hentries⟩ := of_ofPool_eq_ok hp h
  cases hc : p.find? slot with
  | some c =>
    obtain ⟨⟨i, e⟩, he, rfl, hread⟩ := exists_of_forall₂_left hentries
      ((Slots.find?_eq_some_iff hp).1 hc)
    rw [(Slots.find?_eq_some_iff es.laidOut).2 he]
    exact congrArg some hread
  | none =>
    cases he : es.find? slot with
    | none => rfl
    | some e =>
      obtain ⟨⟨i, c⟩, hmem, hslot, -⟩ := exists_of_forall₂_right hentries
        ((Slots.find?_eq_some_iff es.laidOut).1 he)
      cases hslot
      rw [(Slots.find?_eq_some_iff hp).2 hmem] at hc
      cases hc

/-- Entries that have been read bring along whatever they point at. -/
theorem closed_of_ofPool : es.Closed := by
  intro item hitem n hn
  obtain ⟨-, hentries⟩ := of_ofPool_eq_ok hp h
  obtain ⟨⟨i, c⟩, -, -, hread⟩ := exists_of_forall₂_right hentries hitem
  exact provides_of_meets hp h (Entry.meets_of_ofConstant hread n hn)

end OfPool

end EntryPool

namespace PoolBuilder

variable {b b' : PoolBuilder} {es : EntryPool} {items pending : List (Nat × Entry)}

/-! ## Asking for what is there -/

/-- What is in its place can be asked for. -/
theorem knows_of_placed (hb : b.Foremost) {n : Need} {i : Nat} (h : b.Placed i n.entry) :
    b.Knows n := by
  obtain ⟨c, hc, hspell⟩ := h
  obtain ⟨j, hj, -⟩ := hb i c (Need.isShared_of_spell hspell) hc
  exact knows_iff.2 ⟨c, j, hspell, hj⟩

/-- Once nothing is pending, everything among the entries can be asked for. -/
theorem Bears.knows (h : Bears es.toList [] b) {n : Need} (hn : es.Provides n) : b.Knows n := by
  obtain ⟨i, hi⟩ := hn
  exact knows_of_placed h.foremost (h.placed _ hi List.not_mem_nil)

/-! ## Reading back -/

/-- If no slot has been added, the entries that are read back are those that were seeded. -/
theorem Seeded.ofPool_eq (h : Seeded es b) (hes : es.Regular) (hnext : b.constants.next = es.next) :
    EntryPool.ofPool b.constants = .ok es := by
  obtain ⟨-, back, hback, hprefix⟩ := h.grown hes h.coherent (.refl b)
  obtain ⟨hnext', -⟩ := EntryPool.of_ofPool_eq_ok h.coherent.laidOut hback
  have hlaid : Slots.Laid 1 es.toList back.next := by
    rw [hnext', hnext]
    exact es.laidOut
  have hsame : es = back := EntryPool.ext_toList <|
    hlaid.eq_of_prefix back.laidOut hprefix
  rw [hback, hsame]

/-- A constant is read as the entry that it is spelled for. -/
theorem ofConstant_of_spell_eq_ok {e : Entry} {c : Constant} (hb : b.Coherent)
    (hanchored : e.Anchored b.constants) (h : spell e b = .ok (c, b)) :
    Entry.ofConstant b.constants c = .ok e := by
  by_cases he : e.points
  · exact ((writes_spell he b c b h hb).2.2 _ (.refl _)).2 hanchored
  · rw [spell_of_not_points he] at h
    cases h
    exact (Entry.stands_holding he b.constants).resolves _ (.refl _) hanchored

/-- There is nothing in a pool but what is read from it. -/
theorem full_of_ofPool {back : EntryPool} (hb : b.constants.LaidOut 1)
    (hback : EntryPool.ofPool b.constants = .ok back) : b.Full back.toList := by
  obtain ⟨-, hentries⟩ := EntryPool.of_ofPool_eq_ok hb hback
  intro i c hc
  obtain ⟨⟨i', e⟩, he, rfl, -⟩ := exists_of_forall₂_left hentries
    ((Slots.find?_eq_some_iff hb).1 hc)
  exact ⟨e, he⟩

/-- A pool bears the entries that are read from it. -/
theorem Bears.reread {back : EntryPool} (h : Bears items [] b)
    (hanchored : ∀ item ∈ items, item.2.Anchored b.constants)
    (hback : EntryPool.ofPool b.constants = .ok back) :
    Bears back.toList [] b ∧ b.Full back.toList := by
  obtain ⟨-, hentries⟩ := EntryPool.of_ofPool_eq_ok h.coherent.laidOut hback
  have hfull := full_of_ofPool h.coherent.laidOut hback
  -- The entry that is read from a slot is the one that its constant is spelled for.
  have hplaced : ∀ item ∈ back.toList, b.Placed item.1 item.2 := by
    intro item hitem
    obtain ⟨⟨i, c⟩, hc, hslot, hread⟩ := exists_of_forall₂_right hentries hitem
    have hfind : b.constants.find? item.1 = some c := by
      rw [hslot]
      exact (Slots.find?_eq_some_iff h.coherent.laidOut).2 hc
    obtain ⟨e, hanchored, d, hd, hspell⟩ :
        ∃ e : Entry, e.Anchored b.constants ∧ b.Placed item.1 e := by
      by_cases hmem : item.1 ∈ items.map Prod.fst
      · obtain ⟨other, hother, hslot⟩ := List.mem_map.1 hmem
        exact ⟨other.2, hanchored other hother,
          hslot ▸ h.placed other hother List.not_mem_nil⟩
      · obtain ⟨e, hfree, hplaced⟩ := h.added _ c hfind hmem
        exact ⟨e, hfree _, hplaced⟩
    cases hfind.symm.trans hd
    have hread' := ofConstant_of_spell_eq_ok h.coherent hanchored hspell
    cases hread.symm.trans hread'
    exact ⟨c, hfind, hspell⟩
  refine ⟨⟨h.coherent, h.foremost, List.forall_mem_nil _, fun item hitem _ => hplaced item hitem,
    fun i c hc hadded => ?_⟩, hfull⟩
  obtain ⟨e, he⟩ := hfull i c hc
  exact absurd (List.mem_map_of_mem (f := Prod.fst) he) hadded

end PoolBuilder

end Crosswalk
