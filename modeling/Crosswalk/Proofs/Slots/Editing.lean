import Crosswalk.Proofs.Slots.Layout

/-!
# Slots over a run of edits

Items are pushed, and others are put in the place of those that are there, in any order. As long as
every item takes up a slot and is as wide as the one whose place it takes (`Fitting`), the edits
alone tell what is found in the end: the slots that have an item are the ones that the pushes
answered, and each has the item that was put there last (`recorded`).
-/

namespace Crosswalk.Slots

variable {α : Type} [Wide α]

/-- An edit of items with slots. -/
inductive Edit (α : Type)
  /-- Adds an item at the end. -/
  | push (a : α)
  /-- Puts an item in the place of the one that starts at the slot. -/
  | replace (slot : Nat) (a : α)

/-- The items after an edit. -/
def apply (s : Slots α) : Edit α → Slots α
  | .push a => s.push a
  | .replace slot a => s.set slot a

/-- The items after a run of edits. -/
def edit (s : Slots α) (edits : List (Edit α)) : Slots α :=
  edits.foldl apply s

/-! ## What the edits tell -/

/-- The item that an edit adds, if it adds one. -/
def Edit.pushed? : Edit α → Option α
  | .push a => some a
  | .replace _ _ => none

/-- The items that are added. -/
def pushed (edits : List (Edit α)) : List α :=
  edits.filterMap Edit.pushed?

/-- The slots that the pushes answer. A push answers the slot that was next. -/
def answers (s : Slots α) : List (Edit α) → List Nat
  | [] => []
  | .push a :: edits => s.next :: answers (s.push a) edits
  | .replace slot a :: edits => answers (s.set slot a) edits

/-- The items that are put somewhere, each with its slot. -/
def placements (s : Slots α) : List (Edit α) → List (Nat × α)
  | [] => []
  | .push a :: edits => (s.next, a) :: placements (s.push a) edits
  | .replace slot a :: edits => (slot, a) :: placements (s.set slot a) edits

/-- Every item that is added takes up a slot, and every other one is as wide as the item whose place
it takes. -/
def Fitting (s : Slots α) : List (Edit α) → Prop
  | [] => True
  | .push a :: edits => 0 < Wide.width a ∧ Fitting (s.push a) edits
  | .replace slot a :: edits =>
    (∀ old, s.find? slot = some old → Wide.width a = Wide.width old) ∧ Fitting (s.set slot a) edits

/-! ## One edit -/

variable {s : Slots α} {e : Edit α}

/-- A run of edits is an edit and then the others. -/
theorem fitting_cons {edits : List (Edit α)} :
    s.Fitting (e :: edits) ↔ s.Fitting [e] ∧ (s.apply e).Fitting edits := by
  cases e <;> simp [Fitting, apply]

/-- Edits are answered one after the other. -/
theorem answers_cons (s : Slots α) (e : Edit α) (edits : List (Edit α)) :
    s.answers (e :: edits) = s.answers [e] ++ (s.apply e).answers edits := by
  cases e <;> rfl

/-- Items are placed one after the other. -/
theorem placements_cons (s : Slots α) (e : Edit α) (edits : List (Edit α)) :
    s.placements (e :: edits) = s.placements [e] ++ (s.apply e).placements edits := by
  cases e <;> rfl

/-- Only pushes move the next slot. -/
theorem next_apply (s : Slots α) (e : Edit α) :
    (s.apply e).next = s.next + ((pushed [e]).map Wide.width).sum := by
  cases e with
  | push a => rfl
  | replace slot a => exact next_set s slot a

/-- Slots go on rising after an edit that fits. -/
theorem Rising.apply (h : s.Rising) (hfit : s.Fitting [e]) : (s.apply e).Rising := by
  cases e with
  | push a => exact h.push hfit.1
  | replace slot a => exact h.modify slot fun _ => a

theorem LaidOut.apply {start : Nat} (h : s.LaidOut start) (hrising : s.Rising)
    (hfit : s.Fitting [e]) : (s.apply e).LaidOut start := by
  cases e with
  | push a => exact h.push a
  | replace slot a => exact h.modify hrising hfit.1

/-- A push adds its slot behind the others, and a replacement none. -/
theorem Rising.slots_apply (h : s.Rising) (e : Edit α) :
    (s.apply e).toList.map Prod.fst = s.toList.map Prod.fst ++ s.answers [e] := by
  cases e with
  | push a =>
    rw [Slots.apply, toList_push, List.map_append]
    rfl
  | replace slot a =>
    refine (h.slots_modify slot fun _ => a).trans ?_
    rw [answers, answers, List.append_nil]

/-- What is found after an edit was put there by the edit, or was there before. -/
theorem Rising.lookup_of_find?_apply (h : s.Rising) (hfit : s.Fitting [e]) {i : Nat} {a : α}
    (hfind : (s.apply e).find? i = some a) :
    ((s.placements [e]).lookup i).or (s.find? i) = some a := by
  cases e with
  | push b =>
    rw [Slots.apply, h.find?_push hfit.1] at hfind
    split at hfind
    · next hi => simpa [placements, hi] using hfind
    · next hi => simpa [placements, List.lookup_cons, beq_eq_false_iff_ne.2 hi] using hfind
  | replace slot b =>
    rw [Slots.apply, set, h.find?_modify] at hfind
    split at hfind
    · next hi =>
      obtain ⟨old, -, rfl⟩ := Option.map_eq_some_iff.1 hfind
      simp [placements, hi]
    · next hi => simpa [placements, List.lookup_cons, beq_eq_false_iff_ne.2 hi] using hfind

/-! ## Runs of edits -/

/-- The next slot goes on by the widths of the items that are added. -/
theorem next_edit (s : Slots α) (edits : List (Edit α)) :
    (s.edit edits).next = s.next + ((pushed edits).map Wide.width).sum := by
  induction edits generalizing s with
  | nil => rfl
  | cons e edits ih =>
    have hpushed : pushed (e :: edits) = pushed [e] ++ pushed edits :=
      List.filterMap_append (l := [e])
    rw [hpushed, List.map_append, List.sum_append, ← Nat.add_assoc, ← next_apply]
    exact ih (s.apply e)

theorem Rising.edit (h : s.Rising) {edits : List (Edit α)} (hfit : s.Fitting edits) :
    (s.edit edits).Rising := by
  induction edits generalizing s with
  | nil => exact h
  | cons e edits ih =>
    obtain ⟨hfirst, hlater⟩ := fitting_cons.1 hfit
    exact ih (h.apply hfirst) hlater

theorem LaidOut.edit {start : Nat} (h : s.LaidOut start) (hrising : s.Rising)
    {edits : List (Edit α)} (hfit : s.Fitting edits) : (s.edit edits).LaidOut start := by
  induction edits generalizing s with
  | nil => exact h
  | cons e edits ih =>
    obtain ⟨hfirst, hlater⟩ := fitting_cons.1 hfit
    exact ih (h.apply hrising hfirst) (hrising.apply hfirst) hlater

/-- The items are those that were there and the ones in the slots that the pushes answer. -/
theorem Rising.slots_edit (h : s.Rising) {edits : List (Edit α)} (hfit : s.Fitting edits) :
    (s.edit edits).toList.map Prod.fst = s.toList.map Prod.fst ++ s.answers edits := by
  induction edits generalizing s with
  | nil => exact (List.append_nil _).symm
  | cons e edits ih =>
    obtain ⟨hfirst, hlater⟩ := fitting_cons.1 hfit
    rw [answers_cons, ← List.append_assoc, ← h.slots_apply]
    exact ih (h.apply hfirst) hlater

/-- What is found after a run of edits is what was put there last, or was there before. -/
theorem Rising.lookup_of_find?_edit (h : s.Rising) {edits : List (Edit α)} (hfit : s.Fitting edits)
    {i : Nat} {a : α} (hfind : (s.edit edits).find? i = some a) :
    ((s.placements edits).reverse.lookup i).or (s.find? i) = some a := by
  induction edits generalizing s with
  | nil => exact hfind
  | cons e edits ih =>
    obtain ⟨hfirst, hlater⟩ := fitting_cons.1 hfit
    have hsingle : (s.placements [e]).reverse = s.placements [e] := by cases e <;> rfl
    rw [placements_cons, List.reverse_append, hsingle, List.lookup_append, Option.or_assoc]
    -- what a later edit put there hides what this one did
    rcases Option.or_eq_some_iff.1 (ih (h.apply hfirst) hlater hfind) with hput | ⟨hnone, hthere⟩
    · rw [hput, Option.some_or]
    · rw [hnone, Option.none_or]
      exact h.lookup_of_find?_apply hfirst hthere

/-! ## From no items on -/

/-- What the edits of no items tell about the items that come of them. -/
structure Recorded (start : Nat) (edits : List (Edit α)) (s : Slots α) : Prop where
  /-- The next slot is behind the widths of all that was added. -/
  next_eq : s.next = start + ((pushed edits).map Wide.width).sum
  /-- The items take up the slots from the first one on without a gap. -/
  laidOut : s.LaidOut start
  slots_eq : s.toList.map Prod.fst = (startingAt start).answers edits
  pairwise : (s.toList.map Prod.fst).Pairwise (· < ·)
  isSome_find?_iff : ∀ slot, (s.find? slot).isSome ↔ slot ∈ (startingAt start).answers edits
  /-- What is found is what was put there last. -/
  find?_eq : ∀ slot ∈ (startingAt start).answers edits,
    s.find? slot = ((startingAt start).placements edits).reverse.lookup slot
  /-- A change in place reaches the item that is found there and nothing else. -/
  find?_modify : ∀ slot ∈ (startingAt start).answers edits, ∀ (f : α → α) (i : Nat),
    (s.modify slot f).find? i = if i = slot then (s.find? i).map f else s.find? i
  /-- Where nothing is found there is nothing to change. -/
  modify_eq : ∀ slot ∉ (startingAt start).answers edits, ∀ f : α → α, s.modify slot f = s

theorem recorded (start : Nat) {edits : List (Edit α)}
    (hfit : (startingAt start : Slots α).Fitting edits) :
    Recorded start edits ((startingAt start).edit edits) := by
  have hstart : (startingAt start : Slots α).Rising := rising_startingAt start
  have hrising := hstart.edit hfit
  have hslots : ((startingAt start).edit edits).toList.map Prod.fst =
      (startingAt start).answers edits := hstart.slots_edit hfit
  have hfound : ∀ slot, (((startingAt start).edit edits).find? slot).isSome ↔
      slot ∈ (startingAt start).answers edits := fun slot => by
    rw [hrising.isSome_find?_iff, hslots]
  refine ⟨next_edit _ edits, (laidOut_startingAt start).edit hstart hfit, hslots, ?_, hfound, ?_,
    fun slot _ => hrising.find?_modify slot, ?_⟩
  · exact List.pairwise_map.2 hrising.pairwise
  · intro slot hslot
    obtain ⟨a, ha⟩ := Option.isSome_iff_exists.1 ((hfound slot).2 hslot)
    have hlast := hstart.lookup_of_find?_edit hfit ha
    rw [find?_startingAt, Option.or_none] at hlast
    rw [ha, hlast]
  · intro slot hslot f
    refine hrising.modify_eq_self ?_ f
    rw [← Option.not_isSome_iff_eq_none, hfound]
    exact hslot

end Crosswalk.Slots
