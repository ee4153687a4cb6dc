import Mathlib.Data.List.Basic
import Crosswalk.Slots

/-!
# Finding by slot

Bisection needs no more than that slots go up along the items (`Rising`). Then finding by slot is
the same as being listed (`Rising.find?_eq_some_iff`). A new item is found in the slot that was next
(`Rising.find?_push`), and a change in place reaches the item that is found and no other one
(`Rising.find?_modify`).
-/

namespace Crosswalk.Slots

variable {α : Type}

/-- Slots go up along the items, and all of them are in front of the one that is next. -/
structure Rising (s : Slots α) : Prop where
  pairwise : s.toList.Pairwise fun a b => a.1 < b.1
  lt_next : ∀ item ∈ s.toList, item.1 < s.next

/-- Slots are rising as long as there are none. -/
theorem rising_startingAt (start : Nat) : (startingAt start : Slots α).Rising :=
  ⟨.nil, List.forall_mem_nil _⟩

/-- An item that takes up a slot leaves the slots going up. -/
theorem Rising.push [Wide α] {s : Slots α} (h : s.Rising) {a : α} (ha : 0 < Wide.width a) :
    (s.push a).Rising where
  pairwise := by
    rw [toList_push, List.pairwise_append]
    refine ⟨h.pairwise, List.pairwise_singleton _ _, fun item hitem other hother => ?_⟩
    rw [List.mem_singleton.1 hother]
    exact h.lt_next item hitem
  lt_next item hitem := by
    rw [next_push]
    rw [toList_push, List.mem_append, List.mem_singleton] at hitem
    rcases hitem with hitem | rfl
    · exact Nat.lt_add_right _ (h.lt_next item hitem)
    · exact Nat.lt_add_of_pos_right ha

/-- Where slots go up there is one item to a slot. -/
theorem eq_of_pairwise_lt {l : List (Nat × α)} (h : l.Pairwise fun a b => a.1 < b.1) {slot : Nat}
    {a b : α} (ha : (slot, a) ∈ l) (hb : (slot, b) ∈ l) : a = b := by
  induction l with
  | nil => cases ha
  | cons item l ih =>
    obtain ⟨hlater, hrest⟩ := List.pairwise_cons.1 h
    rcases List.mem_cons.1 ha with rfl | ha'
    · rcases List.mem_cons.1 hb with hb' | hb'
      · exact (congrArg Prod.snd hb').symm
      · exact absurd (hlater (slot, b) hb') (Nat.lt_irrefl slot)
    · rcases List.mem_cons.1 hb with rfl | hb'
      · exact absurd (hlater (slot, a) ha') (Nat.lt_irrefl slot)
      · exact ih hrest ha' hb'

/-! ## Bisection -/

/-- Bisection ends at the position of the slot, wherever it starts. -/
theorem seek_eq (items : Array (Nat × α)) (slot : Nat)
    (hsorted : items.toList.Pairwise fun a b => a.1 < b.1) {k : Nat} {a : α}
    (hk : items[k]? = some (slot, a)) (base count : Nat) (hbase : base ≤ k)
    (hcount : k < base + count) (hsize : base + count ≤ items.size) :
    seek items slot base count = k := by
  have hlt : ∀ {i j : Nat} {x y : Nat × α}, items[i]? = some x → items[j]? = some y → i < j →
      x.1 < y.1 := by
    intro i j x y hx hy hij
    rw [← Array.getElem?_toList, List.getElem?_eq_some_iff] at hx hy
    obtain ⟨hi, rfl⟩ := hx
    obtain ⟨hj, rfl⟩ := hy
    exact List.pairwise_iff_getElem.1 hsorted i j hi hj hij
  -- The half that is searched on always has the position in it.
  induction count using Nat.strongRecOn generalizing base with
  | ind count ih =>
    rw [seek]
    split
    · omega
    · next hone =>
      have hmiddle : base + count / 2 < items.size := by omega
      have hget : items[base + count / 2]? = some items[base + count / 2] :=
        Array.getElem?_eq_getElem hmiddle
      simp only [hget, Option.map_some, Option.getD_some, decide_eq_true_eq]
      split
      · next hbehind =>
        have hfront : k < base + count / 2 := by
          rcases Nat.lt_trichotomy k (base + count / 2) with h | h | h
          · exact h
          · subst h
            rw [hk, Option.some.injEq] at hget
            rw [← hget] at hbehind
            exact absurd hbehind (Nat.lt_irrefl slot)
          · have hafter := hlt hget hk h
            exact absurd hbehind (Nat.lt_asymm hafter)
        exact ih (count - count / 2) (by omega) base hbase (by omega) (by omega)
      · next hnot =>
        have hback : base + count / 2 ≤ k := by
          rcases Nat.lt_or_ge k (base + count / 2) with h | h
          · exact absurd (hlt hk hget h) hnot
          · exact h
        exact ih (count - count / 2) (by omega) _ hback (by omega) (by omega)

variable {s : Slots α}

/-- The position of a slot is where the item is listed. -/
theorem Rising.position?_eq (h : s.Rising) {slot k : Nat} {a : α}
    (hk : s.items[k]? = some (slot, a)) : s.position? slot = some k := by
  have hsize : k < s.items.size := (Array.getElem?_eq_some_iff.1 hk).1
  have hseek := seek_eq s.items slot h.pairwise hk 0 s.items.size (by omega) (by omega) (by omega)
  simp only [position?, hseek, hk, if_true]

/-- What is found at a position has the slot that was asked for. -/
theorem of_position?_eq {slot k : Nat} (h : s.position? slot = some k) :
    ∃ a, s.items[k]? = some (slot, a) := by
  simp only [position?] at h
  split at h
  · next start a hget =>
    split at h
    · next hslot =>
      cases h
      exact ⟨a, hslot ▸ hget⟩
    · cases h
  · cases h

/-- Finding by slot is the same as being listed with that slot. -/
theorem Rising.find?_eq_some_iff (h : s.Rising) {slot : Nat} {a : α} :
    s.find? slot = some a ↔ (slot, a) ∈ s.toList := by
  constructor
  · intro hfind
    obtain ⟨k, hk, hitem⟩ := Option.bind_eq_some_iff.1 hfind
    obtain ⟨b, hb⟩ := of_position?_eq hk
    obtain ⟨item, hget, hpure⟩ := Option.bind_eq_some_iff.1 hitem
    rw [hb, Option.some.injEq] at hget
    subst hget
    cases hpure
    exact List.mem_of_getElem? (by rw [toList, Array.getElem?_toList]; exact hb)
  · intro hmem
    obtain ⟨k, hk⟩ := List.getElem?_of_mem hmem
    rw [toList, Array.getElem?_toList] at hk
    have hbind : s.find? slot = (s.position? slot).bind fun index =>
        (s.items[index]?).bind fun item => some item.2 := rfl
    rw [hbind, h.position?_eq hk, Option.bind_some, hk]
    rfl

/-- Something is found in every slot that an item begins in, and nowhere else. -/
theorem Rising.isSome_find?_iff (h : s.Rising) {slot : Nat} :
    (s.find? slot).isSome ↔ slot ∈ s.toList.map Prod.fst := by
  rw [Option.isSome_iff_exists, List.mem_map]
  constructor
  · rintro ⟨a, ha⟩
    exact ⟨(slot, a), h.find?_eq_some_iff.1 ha, rfl⟩
  · rintro ⟨⟨slot', a⟩, hmem, rfl⟩
    exact ⟨a, h.find?_eq_some_iff.2 hmem⟩

/-- Nothing is found where nothing has been pushed. -/
theorem find?_startingAt (start slot : Nat) : (startingAt start : Slots α).find? slot = none := by
  rw [Option.eq_none_iff_forall_ne_some]
  intro a ha
  cases (rising_startingAt start).find?_eq_some_iff.1 ha

/-- Nothing is found in a slot that is still to come. -/
theorem Rising.lt_next_of_find? (h : s.Rising) {slot : Nat} {a : α}
    (hfind : s.find? slot = some a) :
    slot < s.next :=
  h.lt_next (slot, a) (h.find?_eq_some_iff.1 hfind)

/-- A new item is found in the slot that was next, and everything else where it was. -/
theorem Rising.find?_push [Wide α] (h : s.Rising) {a : α} (ha : 0 < Wide.width a) (i : Nat) :
    (s.push a).find? i = if i = s.next then some a else s.find? i := by
  apply Option.ext
  intro b
  rw [(h.push ha).find?_eq_some_iff, toList_push, List.mem_append, List.mem_singleton,
    ← h.find?_eq_some_iff]
  split
  · next hi =>
    subst hi
    have hnone : s.find? s.next ≠ some b := fun hfind => Nat.lt_irrefl _ (h.lt_next_of_find? hfind)
    simp [hnone, eq_comm]
  · next hi => simp [hi]

/-! ## Changing in place -/

/-- A change in place moves no slot. -/
theorem next_modify (s : Slots α) (slot : Nat) (f : α → α) : (s.modify slot f).next = s.next := by
  rw [modify]
  split <;> rfl

/-- A change to the item in one slot leaves all others alone. -/
theorem Rising.toList_modify (h : s.Rising) (slot : Nat) (f : α → α) :
    (s.modify slot f).toList =
      s.toList.map fun item => (item.1, if item.1 = slot then f item.2 else item.2) := by
  rw [modify]
  split
  · next k hk =>
    obtain ⟨b, hb⟩ := of_position?_eq hk
    apply List.ext_getElem?
    intro j
    rw [List.getElem?_map, toList, toList, Array.getElem?_toList, Array.getElem?_toList,
      Array.getElem?_modify]
    by_cases hjk : k = j
    · subst hjk
      simp [hb]
    · rw [if_neg hjk]
      cases hj : s.items[j]? with
      | none => rfl
      | some item =>
        have hne : item.1 ≠ slot := by
          rintro rfl
          have hjk' := h.position?_eq (a := item.2) hj
          rw [hk, Option.some.injEq] at hjk'
          exact hjk hjk'
        simp [hne]
  · next hk =>
    have hnone : ∀ item ∈ s.toList, item.1 ≠ slot := by
      rintro ⟨slot', b⟩ hmem rfl
      obtain ⟨j, hj⟩ := List.getElem?_of_mem hmem
      rw [toList, Array.getElem?_toList] at hj
      rw [h.position?_eq hj] at hk
      cases hk
    rw [List.map_congr_left (g := id), List.map_id]
    intro item hitem
    simp [hnone item hitem]

/-- Where nothing is found, nothing is changed. -/
theorem Rising.modify_eq_self (h : s.Rising) {slot : Nat} (hnone : s.find? slot = none)
    (f : α → α) : s.modify slot f = s := by
  rw [modify]
  split
  · next k hk =>
    obtain ⟨a, ha⟩ := of_position?_eq hk
    have hmem : (slot, a) ∈ s.toList :=
      List.mem_of_getElem? (by rw [toList, Array.getElem?_toList]; exact ha)
    rw [h.find?_eq_some_iff.2 hmem] at hnone
    cases hnone
  · rfl

/-- A change in place leaves every item its slot. -/
theorem Rising.slots_modify (h : s.Rising) (slot : Nat) (f : α → α) :
    (s.modify slot f).toList.map Prod.fst = s.toList.map Prod.fst := by
  rw [h.toList_modify, List.map_map]
  rfl

theorem Rising.modify (h : s.Rising) (slot : Nat) (f : α → α) : (s.modify slot f).Rising where
  pairwise := by
    rw [h.toList_modify, List.pairwise_map]
    exact h.pairwise
  lt_next item hitem := by
    rw [h.toList_modify] at hitem
    obtain ⟨old, hold, rfl⟩ := List.mem_map.1 hitem
    rw [next_modify]
    exact h.lt_next old hold

/-- The item that is changed is found changed, and everything else as it was. -/
theorem Rising.find?_modify (h : s.Rising) (slot : Nat) (f : α → α) (i : Nat) :
    (s.modify slot f).find? i = if i = slot then (s.find? i).map f else s.find? i := by
  apply Option.ext
  intro b
  rw [(h.modify slot f).find?_eq_some_iff, h.toList_modify, List.mem_map]
  constructor
  · rintro ⟨⟨slot', c⟩, hmem, heq⟩
    obtain ⟨rfl, rfl⟩ := Prod.mk.inj heq
    rw [h.find?_eq_some_iff.2 hmem]
    split <;> rfl
  · intro hb
    split at hb
    · next hi =>
      obtain ⟨c, hc, rfl⟩ := Option.map_eq_some_iff.1 hb
      exact ⟨(i, c), h.find?_eq_some_iff.1 hc, by simp [hi]⟩
    · next hi => exact ⟨(i, b), h.find?_eq_some_iff.1 hb, by simp [hi]⟩

end Crosswalk.Slots
