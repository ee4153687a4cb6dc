import Mathlib.Algebra.GroupWithZero.Nat
import Mathlib.Data.List.Forall2
import Crosswalk.Proofs.Slots.Finding

/-!
# Slots without gaps

Items that are pushed one after the other take up a stretch of slots without a gap, which is what
`LaidOut` says. It makes slots unique, so that finding by slot is the same as being listed
(`find?_eq_some_iff`), and putting an item of the same width in the place of another one changes
what is found in that slot and nothing else (`find?_set`).
-/

namespace Crosswalk

/-- Every item takes up at least one slot. -/
class LawfulWide (α : Type) [Wide α] : Prop where
  width_pos : ∀ a : α, 0 < Wide.width a

namespace Slots

variable {α β : Type} [Wide α]

/-! ## Layout -/

/-- Items that are added in order are behind those that were there. -/
theorem foldl_push_eq (s : Slots α) (items : List α) : ∃ l,
    (items.foldl push s).toList = s.toList ++ l ∧ l.map Prod.snd = items ∧
      (items.foldl push s).next = s.next + (items.map Wide.width).sum := by
  induction items generalizing s with
  | nil => exact ⟨[], by simp, rfl, by simp⟩
  | cons a items ih =>
    obtain ⟨l, hlist, hitems, hnext⟩ := ih (s.push a)
    refine ⟨(s.next, a) :: l, ?_, by rw [List.map_cons, hitems], ?_⟩
    · rw [List.foldl_cons, hlist, toList_push, List.append_assoc]
      rfl
    · rw [List.foldl_cons, hnext, next_push, List.map_cons, List.sum_cons, Nat.add_assoc]

/-- Items that are changed into others of the same width get the same slots. -/
theorem map_ofList [Wide β] {f : α → β} (hw : ∀ a, Wide.width (f a) = Wide.width a) (start : Nat)
    (items : List α) : ((ofList start items).map fun _ a => f a) = ofList start (items.map f) := by
  have hpush : ∀ s : Slots α, ((items.foldl push s).map fun _ a => f a) =
      (items.map f).foldl push (s.map fun _ a => f a) := by
    induction items with
    | nil => exact fun s => rfl
    | cons a items ih =>
      intro s
      rw [List.foldl_cons, ih, List.map_cons, List.foldl_cons]
      congr 1
      refine ext_toList (by simp) ?_
      show s.next + Wide.width a = s.next + Wide.width (f a)
      rw [hw]
  have hstart : ((startingAt start : Slots α).map fun _ a => f a) = startingAt start :=
    ext_toList (by simp) rfl
  rw [ofList, hpush, hstart, ofList]

/-- Items without a gap are what comes of pushing them one after the other. -/
theorem foldl_push {start : Nat} {l : List (Nat × α)} {s t : Slots α} (hs : s.LaidOut start)
    (ht : t.LaidOut start) (hlist : t.toList = s.toList ++ l) :
    (l.map Prod.snd).foldl Slots.push s = t := by
  induction l generalizing s with
  | nil =>
    rw [List.append_nil] at hlist
    exact (ext_toList hlist (Laid.stop_unique (hlist ▸ ht) hs)).symm
  | cons item l ih =>
    obtain ⟨slot, a⟩ := item
    have hslot : slot = s.next := by
      have ht' := ht
      rw [LaidOut, hlist, laid_append] at ht'
      obtain ⟨middle, hfirst, hslot, -⟩ := ht'
      rw [hslot, Laid.stop_unique hfirst hs]
    rw [List.map_cons, List.foldl_cons]
    refine ih (hs.push a) ?_
    rw [hlist, toList_push, hslot, List.append_assoc]
    rfl

/-- Items that are as wide as the ones laid out already get the same slots. -/
theorem toList_foldl_push [Wide β] {r : Nat × α → β → Prop} {l : List (Nat × α)} {bs : List β}
    {t : Slots β} {stop : Nat} (hr : List.Forall₂ r l bs)
    (hw : ∀ item b, r item b → Wide.width b = Wide.width item.2) (hlaid : Laid t.next l stop) :
    ∃ m, (bs.foldl Slots.push t).toList = t.toList ++ m ∧ (bs.foldl Slots.push t).next = stop ∧
      List.Forall₂ (fun item item' => item'.1 = item.1 ∧ r item item'.2) l m := by
  induction hr generalizing t with
  | nil => exact ⟨[], by simp, hlaid.symm, .nil⟩
  | @cons item b l bs hb _ ih =>
    obtain ⟨slot, a⟩ := item
    obtain ⟨rfl, hrest⟩ := hlaid
    obtain ⟨m, hlist, hnext, hm⟩ := ih (t := t.push b) (by
      show Laid (t.next + Wide.width b) l stop
      rwa [hw _ _ hb])
    refine ⟨(t.next, b) :: m, ?_, hnext, .cons ⟨rfl, hb⟩ hm⟩
    rw [List.foldl_cons, hlist, toList_push, List.append_assoc]
    rfl

/-- An item lies between the two ends. -/
theorem Laid.bounds {start stop : Nat} {l : List (Nat × α)} (h : Laid start l stop) :
    start ≤ stop ∧ ∀ item ∈ l, start ≤ item.1 ∧ item.1 + Wide.width item.2 ≤ stop := by
  induction l generalizing start with
  | nil =>
    rw [Laid] at h
    simp [h]
  | cons item l ih =>
    obtain ⟨slot, a⟩ := item
    obtain ⟨rfl, hrest⟩ := h
    obtain ⟨hle, hitems⟩ := ih hrest
    refine ⟨by omega, fun item hitem => ?_⟩
    rcases List.mem_cons.1 hitem with rfl | hitem
    · exact ⟨Nat.le_refl _, hle⟩
    · have := hitems item hitem
      omega

/-- A change that leaves the item its width leaves the layout alone. -/
theorem LaidOut.modify {start : Nat} {s : Slots α} (h : s.LaidOut start) (hrising : s.Rising)
    {slot : Nat} {f : α → α}
    (hw : ∀ a, s.find? slot = some a → Wide.width (f a) = Wide.width a) :
    (s.modify slot f).LaidOut start := by
  rw [LaidOut, hrising.toList_modify, next_modify]
  refine (laid_map (f := fun item => if item.1 = slot then f item.2 else item.2) ?_).2 h
  rintro ⟨slot', a⟩ hmem
  simp only
  split
  · next hslot => exact hw a (hrising.find?_eq_some_iff.2 (hslot ▸ hmem))
  · rfl

/-- The number of slots that items take up. -/
def taken (s : Slots α) : Nat :=
  (s.toList.map fun item => Wide.width item.2).sum

theorem Laid.stop_eq {start stop : Nat} {l : List (Nat × α)} (h : Laid start l stop) :
    stop = start + (l.map fun item => Wide.width item.2).sum := by
  induction l generalizing start with
  | nil => exact h
  | cons item l ih =>
    rw [ih h.2, List.map_cons, List.sum_cons]
    omega

/-- The next slot is behind all that are taken. -/
theorem LaidOut.next_eq {start : Nat} {s : Slots α} (h : s.LaidOut start) :
    s.next = start + s.taken :=
  Laid.stop_eq h

variable [LawfulWide α]

/-- Slots go up. -/
theorem Laid.pairwise {start stop : Nat} {l : List (Nat × α)} (h : Laid start l stop) :
    l.Pairwise fun a b => a.1 < b.1 := by
  induction l generalizing start with
  | nil => exact .nil
  | cons item l ih =>
    obtain ⟨slot, a⟩ := item
    obtain ⟨rfl, hrest⟩ := h
    refine .cons (fun item hitem => ?_) (ih hrest)
    have hbound := (hrest.bounds.2 item hitem).1
    have hpos := LawfulWide.width_pos a
    show slot < item.1
    omega

/-- There is one item to a slot. -/
theorem Laid.unique {start stop slot : Nat} {l : List (Nat × α)} {a b : α} (h : Laid start l stop)
    (ha : (slot, a) ∈ l) (hb : (slot, b) ∈ l) : a = b :=
  eq_of_pairwise_lt h.pairwise ha hb

/-- A layout that goes on but ends where it did has nothing more. -/
theorem Laid.eq_of_prefix {start stop : Nat} {l m : List (Nat × α)} (hl : Laid start l stop)
    (hm : Laid start m stop) (hfront : l <+: m) : l = m := by
  obtain ⟨rest, rfl⟩ := hfront
  obtain ⟨middle, hl', hrest⟩ := laid_append.1 hm
  obtain rfl := hl.stop_unique hl'
  cases rest with
  | nil => exact (List.append_nil l).symm
  | cons item rest =>
    have hbound := hrest.bounds.2 item List.mem_cons_self
    have hpos := LawfulWide.width_pos item.2
    omega

/-- Of two layouts from the same slot on, one that has all items of the other starts with it. -/
theorem Laid.prefix_of_subset {start stop stop' : Nat} {l m : List (Nat × α)}
    (hl : Laid start l stop) (hm : Laid start m stop') (hsub : ∀ item ∈ l, item ∈ m) :
    l <+: m := by
  induction l generalizing start m with
  | nil => exact List.nil_prefix
  | cons item l ih =>
    obtain ⟨slot, a⟩ := item
    obtain ⟨rfl, hrest⟩ := hl
    have hfirst := hsub (slot, a) List.mem_cons_self
    cases m with
    | nil => cases hfirst
    | cons other m =>
      obtain ⟨slot', b⟩ := other
      have hslot : slot' = slot := hm.1
      subst hslot
      have hab : a = b := Laid.unique hm hfirst List.mem_cons_self
      subst hab
      refine List.cons_prefix_cons.2 ⟨rfl, ih hrest hm.2 fun item hitem => ?_⟩
      rcases List.mem_cons.1 (hsub item (List.mem_cons_of_mem _ hitem)) with rfl | h
      · have hbound := (hrest.bounds.2 _ hitem).1
        have hpos := LawfulWide.width_pos a
        exact absurd hbound (by show ¬ slot' + Wide.width a ≤ slot'; omega)
      · exact h

/-! ## Finding -/

/-- Without a gap, slots go up. -/
theorem LaidOut.rising {start : Nat} {s : Slots α} (h : s.LaidOut start) : s.Rising where
  pairwise := Laid.pairwise h
  lt_next item hitem := by
    have hbound := ((Laid.bounds h).2 item hitem).2
    have hpos := LawfulWide.width_pos item.2
    omega

/-- Finding by slot is the same as being listed with that slot. -/
theorem find?_eq_some_iff {start : Nat} {s : Slots α} (h : s.LaidOut start) {slot : Nat} {a : α} :
    s.find? slot = some a ↔ (slot, a) ∈ s.toList :=
  h.rising.find?_eq_some_iff

/-- Nothing is found where no item starts. -/
theorem find?_eq_none_of_lt {start : Nat} {s : Slots α} (h : s.LaidOut start) {slot : Nat}
    (hslot : slot < start ∨ s.next ≤ slot) : s.find? slot = none := by
  cases hfind : s.find? slot with
  | none => rfl
  | some a =>
    have hbound := (Laid.bounds h).2 _ ((find?_eq_some_iff h).1 hfind)
    have hpos := LawfulWide.width_pos a
    simp only at hbound
    omega

/-! ## Changing in place -/

omit [Wide α] [LawfulWide α] in
theorem next_set (s : Slots α) (slot : Nat) (a : α) : (s.set slot a).next = s.next :=
  next_modify s slot fun _ => a

/-- An item of the same width takes the place of another one. -/
theorem LaidOut.set {start : Nat} {s : Slots α} (h : s.LaidOut start) {slot : Nat} {old a : α}
    (hold : s.find? slot = some old) (hw : Wide.width a = Wide.width old) :
    (s.set slot a).LaidOut start := by
  refine h.modify h.rising fun b hb => ?_
  rw [hold, Option.some.injEq] at hb
  rw [hw, hb]

/-- The item that takes the place of another one is found there, and everything else where it was.
-/
theorem find?_set {start : Nat} {s : Slots α} (h : s.LaidOut start) {slot : Nat} {old a : α}
    (hold : s.find? slot = some old) (i : Nat) :
    (s.set slot a).find? i = if i = slot then some a else s.find? i := by
  rw [set, h.rising.find?_modify]
  split
  · next hi => rw [hi, hold, Option.map_some]
  · rfl

/-- A new item is found in the slot that was next, and everything else where it was. -/
theorem find?_push {start : Nat} {s : Slots α} (h : s.LaidOut start) (a : α) (i : Nat) :
    (s.push a).find? i = if i = s.next then some a else s.find? i :=
  h.rising.find?_push (LawfulWide.width_pos a) i

end Slots

end Crosswalk
