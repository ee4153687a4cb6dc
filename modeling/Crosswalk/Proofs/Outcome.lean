import Mathlib.Data.List.Forall2

/-!
# Outcomes that are no fault

When steps that may fail are taken one after the other, there is an answer exactly if every one of
them has its answer. A step for each item of a list pairs the items with their answers, so this
module also has what is needed about lists that are paired item by item.
-/

namespace Crosswalk

variable {ε α β : Type}

/-- Two steps have an answer if the first has one, and the second has one behind it. -/
theorem bind_eq_ok_iff {x : Except ε α} {f : α → Except ε β} {b : β} :
    (x >>= f) = .ok b ↔ ∃ a, x = .ok a ∧ f a = .ok b := by
  cases x with
  | error e =>
    constructor
    · intro h
      cases h
    · rintro ⟨a, h, -⟩
      cases h
  | ok a =>
    constructor
    · exact fun h => ⟨a, rfl, h⟩
    · rintro ⟨a', h, hf⟩
      cases h
      exact hf

/-- What follows a failure does not happen. -/
theorem bind_eq_error {x : Except ε α} {f : α → Except ε β} {e : ε} (h : x = .error e) :
    (x >>= f) = .error e := by
  rw [h]
  rfl

/-- What follows goes on with the outcome. -/
theorem bind_eq_of_ok {x : Except ε α} {f : α → Except ε β} {a : α} (h : x = .ok a) :
    (x >>= f) = f a := by
  rw [h]
  rfl

/-- What is done with an answer at the end does not fail. -/
theorem map_eq_ok_iff {x : Except ε α} {f : α → β} {b : β} :
    (x >>= fun a => pure (f a)) = .ok b ↔ ∃ a, x = .ok a ∧ f a = b := by
  rw [bind_eq_ok_iff]
  constructor
  · rintro ⟨a, ha, hb⟩
    exact ⟨a, ha, Except.ok.inj hb⟩
  · rintro ⟨a, ha, hb⟩
    exact ⟨a, ha, congrArg Except.ok hb⟩

/-- If a step answers one value only, and on some condition, then what is made of the answer is made
of that value on the same condition. -/
theorem map_eq_ok_iff_of_iff {x : Except ε α} {f : α → β} {a : α} {b : β} {fits : Prop}
    (h : ∀ a', x = .ok a' ↔ fits ∧ a' = a) :
    (x >>= fun a => pure (f a)) = .ok b ↔ fits ∧ b = f a := by
  rw [map_eq_ok_iff]
  constructor
  · rintro ⟨a', ha', rfl⟩
    obtain ⟨hfits, rfl⟩ := (h a').1 ha'
    exact ⟨hfits, rfl⟩
  · rintro ⟨hfits, rfl⟩
    exact ⟨a, (h a).2 ⟨hfits, rfl⟩, rfl⟩

/-- Behind a step that has an answer, the next one goes on with the state it has left. -/
theorem of_stateT_bind_eq_ok {σ : Type} {x : StateT σ (Except ε) α} {f : α → StateT σ (Except ε) β}
    {s s' : σ} {b : β} (h : (x >>= f) s = .ok (b, s')) :
    ∃ a middle, x s = .ok (a, middle) ∧ f a middle = .ok (b, s') := by
  obtain ⟨⟨a, middle⟩, hx, hf⟩ := bind_eq_ok_iff.1 h
  exact ⟨a, middle, hx, hf⟩

/-- A step for every item has an answer if there is one for each. -/
theorem mapM_eq_ok_iff {f : α → Except ε β} {l : List α} {bs : List β} :
    l.mapM f = .ok bs ↔ List.Forall₂ (fun a b => f a = .ok b) l bs := by
  induction l generalizing bs with
  | nil =>
    rw [List.mapM_nil, List.forall₂_nil_left_iff]
    constructor
    · intro h
      exact (Except.ok.inj h).symm
    · rintro rfl
      rfl
  | cons a l ih =>
    rw [List.mapM_cons, List.forall₂_cons_left_iff, bind_eq_ok_iff]
    constructor
    · rintro ⟨b, hb, h⟩
      obtain ⟨bs', hbs, rfl⟩ := map_eq_ok_iff.1 h
      exact ⟨b, bs', hb, ih.1 hbs, rfl⟩
    · rintro ⟨b, bs', hb, hbs, rfl⟩
      exact ⟨b, hb, map_eq_ok_iff.2 ⟨bs', ih.2 hbs, rfl⟩⟩

/-- A list can be mapped if each of its items can be. -/
theorem exists_mapM_eq_ok {f : α → Except ε β} {l : List α} (h : ∀ a ∈ l, ∃ b, f a = .ok b) :
    ∃ bs, l.mapM f = .ok bs := by
  induction l with
  | nil => exact ⟨[], rfl⟩
  | cons a l ih =>
    obtain ⟨b, hb⟩ := h a List.mem_cons_self
    obtain ⟨bs, hbs⟩ := ih fun a ha => h a (List.mem_cons_of_mem _ ha)
    rw [mapM_eq_ok_iff] at hbs
    exact ⟨b :: bs, mapM_eq_ok_iff.2 (.cons hb hbs)⟩

/-! ## One item for another -/

/-- One item of a list has made way for another one. -/
inductive Swapped {α : Type} (r : α → α → Prop) : List α → List α → Prop
  | intro (before after : List α) {a a' : α} (h : r a a') :
    Swapped r (before ++ a :: after) (before ++ a' :: after)

/-- If all steps had an answer, and the one for a new item has none, then its fault is the first. -/
theorem mapM_of_swapped {r : α → α → Prop} {f : α → Except ε β} {l l' : List α} {bs : List β}
    {e : ε} (hswapped : Swapped r l l') (hl : l.mapM f = .ok bs)
    (hr : ∀ a a' b, r a a' → f a = .ok b → f a' = .error e) : l'.mapM f = .error e := by
  obtain ⟨before, after, hitem⟩ := hswapped
  induction before generalizing bs with
  | nil =>
    rw [List.nil_append, List.mapM_cons] at hl ⊢
    obtain ⟨b, hb, -⟩ := bind_eq_ok_iff.1 hl
    exact bind_eq_error (hr _ _ b hitem hb)
  | cons first before ih =>
    rw [List.cons_append, List.mapM_cons] at hl ⊢
    obtain ⟨b, hb, hrest⟩ := bind_eq_ok_iff.1 hl
    obtain ⟨bs', hbs', -⟩ := map_eq_ok_iff.1 hrest
    rw [bind_eq_of_ok hb]
    exact bind_eq_error (ih hbs')

/-! ## Item by item -/

section Paired

variable {γ : Type} {r : α → β → Prop} {l : List α} {m : List β}

/-- Every item on the right has a partner on the left. -/
theorem exists_of_forall₂_right (h : List.Forall₂ r l m) {b : β} (hb : b ∈ m) :
    ∃ a ∈ l, r a b := by
  induction h with
  | nil => cases hb
  | @cons a b' l m hab _ ih =>
    rcases List.mem_cons.1 hb with rfl | hb
    · exact ⟨a, List.mem_cons_self, hab⟩
    · obtain ⟨a', ha', hr⟩ := ih hb
      exact ⟨a', List.mem_cons_of_mem _ ha', hr⟩

/-- Every item on the left has a partner on the right. -/
theorem exists_of_forall₂_left (h : List.Forall₂ r l m) {a : α} (ha : a ∈ l) :
    ∃ b ∈ m, r a b :=
  exists_of_forall₂_right (r := fun b a => r a b) h.flip ha

/-- What partners have in common, the lists have in common. -/
theorem map_eq_map_of_forall₂ {f : α → γ} {g : β → γ}
    (h : List.Forall₂ (fun a b => f a = g b) l m) :
    l.map f = m.map g := by
  rw [← List.forall₂_eq_eq_eq, List.forall₂_map_left_iff, List.forall₂_map_right_iff]
  exact h

/-- If every step gives back the partner of its item, on the condition that both of them are as
they should be, then the steps give back the list on the same condition. -/
theorem forall_and_mapM_eq_ok_iff {f : β → Except ε α} {fits : α → Prop} {ok : β → Prop}
    (h : List.Forall₂ (fun a b => ∀ back, ok b ∧ f b = .ok back ↔ fits a ∧ back = a) l m)
    {k : List α} :
    (∀ b ∈ m, ok b) ∧ m.mapM f = .ok k ↔ (∀ a ∈ l, fits a) ∧ k = l := by
  rw [mapM_eq_ok_iff]
  induction h generalizing k with
  | nil => simp
  | @cons a b l m hab _ ih =>
    rw [List.forall₂_cons_left_iff, List.forall_mem_cons, List.forall_mem_cons]
    constructor
    · rintro ⟨⟨hok, hoks⟩, a', back', hb, hm, rfl⟩
      obtain ⟨hfits, rfl⟩ := (hab a').1 ⟨hok, hb⟩
      obtain ⟨hall, rfl⟩ := ih.1 ⟨hoks, hm⟩
      exact ⟨⟨hfits, hall⟩, rfl⟩
    · rintro ⟨⟨hfits, hall⟩, rfl⟩
      obtain ⟨hok, hb⟩ := (hab a).2 ⟨hfits, rfl⟩
      obtain ⟨hoks, hm⟩ := ih.2 ⟨hall, rfl⟩
      exact ⟨⟨hok, hoks⟩, a, l, hb, hm, rfl⟩

end Paired

end Crosswalk
