/-!
# Slots

A sequence whose items take up one or more slots each, so that an item is found by the number of
its first slot and not by its position. The constants of a class file are kept in this way: slots
count from one, and a number of eight bytes takes up two.

`push` answers the slot of the new item, `find?` and `modify` go by slot, and `toList` is the view
that the other operations are described by.
-/

namespace Crosswalk

/-- How many slots an item takes up. -/
class Wide (α : Type) where
  width : α → Nat

/-- Items with their first slots, and the slot that the next item will get. -/
structure Slots (α : Type) where
  items : Array (Nat × α)
  next : Nat
  deriving Repr

namespace Slots

variable {α β : Type}

/-! ## Building -/

/-- No items, and the next one will get the given slot. -/
def startingAt (start : Nat) : Slots α :=
  ⟨#[], start⟩

instance : Inhabited (Slots α) := ⟨startingAt 1⟩

/-- Items with their slots in order. -/
def toList (s : Slots α) : List (Nat × α) :=
  s.items.toList

/-- The number of items. -/
def size (s : Slots α) : Nat :=
  s.items.size

/-- Whether there are no items. -/
def isEmpty (s : Slots α) : Bool :=
  s.items.isEmpty

/-- Adds an item at the end. Its slot is the one that was next. -/
def push [Wide α] (s : Slots α) (a : α) : Slots α :=
  ⟨s.items.push (s.next, a), s.next + Wide.width a⟩

/-- Gives every item the slots it needs, from the given slot on. -/
def ofList [Wide α] (start : Nat) (items : List α) : Slots α :=
  items.foldl push (startingAt start)

/-! ## Finding -/

/-- The position, among the `count` items from position `base` on, of the last item whose slot is
not behind `slot`; `base` if there is none. -/
def seek (items : Array (Nat × α)) (slot base count : Nat) : Nat :=
  if count ≤ 1 then
    base
  else
    let middle := base + count / 2
    let isBehind := (items[middle]?.map fun item => decide (slot < item.1)).getD true
    seek items slot (if isBehind then base else middle) (count - count / 2)
termination_by count

/-- The position of the item that starts at `slot`. -/
def position? (s : Slots α) (slot : Nat) : Option Nat :=
  let index := seek s.items slot 0 s.items.size
  match s.items[index]? with
  | some (start, _) => if start = slot then some index else none
  | none => none

/-- The item that starts at `slot`. A slot in the middle of a wide item has none. -/
def find? (s : Slots α) (slot : Nat) : Option α := do
  let index ← s.position? slot
  let item ← s.items[index]?
  pure item.2

/-! ## Changing in place -/

/-- Changes the item that starts at `slot`, if there is one. -/
def modify (s : Slots α) (slot : Nat) (f : α → α) : Slots α :=
  match s.position? slot with
  | some index => { s with items := s.items.modify index fun item => (item.1, f item.2) }
  | none => s

/-- Puts another item in the place of the one that starts at `slot`, if there is one. -/
def set (s : Slots α) (slot : Nat) (a : α) : Slots α :=
  s.modify slot fun _ => a

/-- Changes every item, which keeps its slot. -/
def map (f : Nat → α → β) (s : Slots α) : Slots β :=
  ⟨s.items.map fun item => (item.1, f item.1 item.2), s.next⟩

/-! ## Showing -/

/-- The items in the form that a message shows them in. -/
def text (showItem : α → String) (s : Slots α) : String :=
  let one (item : Nat × α) := "#" ++ toString item.1 ++ " = " ++ showItem item.2
  "[" ++ ", ".intercalate (s.toList.map one) ++ "]"

/-! ## The view -/

@[simp] theorem toList_startingAt (start : Nat) : (startingAt start : Slots α).toList = [] := rfl

@[simp] theorem next_startingAt (start : Nat) : (startingAt start : Slots α).next = start := rfl

/-- A new item gets the next slot, behind all others. -/
@[simp] theorem toList_push [Wide α] (s : Slots α) (a : α) :
    (s.push a).toList = s.toList ++ [(s.next, a)] := by
  simp [push, toList]

/-- The slots that follow make room for the width of the item. -/
@[simp] theorem next_push [Wide α] (s : Slots α) (a : α) :
    (s.push a).next = s.next + Wide.width a := rfl

/-- Every item is changed in its slot. -/
@[simp] theorem toList_map (f : Nat → α → β) (s : Slots α) :
    (s.map f).toList = s.toList.map fun item => (item.1, f item.1 item.2) := by
  simp [map, toList]

@[simp] theorem next_map (f : Nat → α → β) (s : Slots α) : (s.map f).next = s.next := rfl

/-! ## Layout -/

section Layout

variable [Wide α] [Wide β]

/-- The items take up the slots from `start` on without a gap, and `stop` is the slot behind them.
-/
def Laid : Nat → List (Nat × α) → Nat → Prop
  | start, [], stop => stop = start
  | start, (slot, a) :: rest, stop => slot = start ∧ Laid (start + Wide.width a) rest stop

/-- The items take up every slot from `start` on, up to the one that is next. -/
def LaidOut (start : Nat) (s : Slots α) : Prop :=
  Laid start s.toList s.next

/-- A layout in two parts goes on where the first one ends. -/
theorem laid_append {start stop : Nat} {l m : List (Nat × α)} :
    Laid start (l ++ m) stop ↔ ∃ middle, Laid start l middle ∧ Laid middle m stop := by
  induction l generalizing start with
  | nil => simp [Laid]
  | cons item l ih =>
    obtain ⟨slot, a⟩ := item
    simp only [List.cons_append, Laid, ih]
    constructor
    · rintro ⟨hslot, middle, hl, hm⟩
      exact ⟨middle, ⟨hslot, hl⟩, hm⟩
    · rintro ⟨middle, ⟨hslot, hl⟩, hm⟩
      exact ⟨hslot, middle, hl, hm⟩

/-- Without items there is no gap. -/
theorem laidOut_startingAt (start : Nat) : LaidOut start (startingAt start : Slots α) := rfl

/-- A new item goes on where the others end. -/
theorem LaidOut.push {start : Nat} {s : Slots α} (h : s.LaidOut start) (a : α) :
    (s.push a).LaidOut start := by
  rw [LaidOut, toList_push, laid_append]
  exact ⟨s.next, h, rfl, rfl⟩

/-- Items that get their slots one after the other leave no gap. -/
theorem laidOut_ofList (start : Nat) (items : List α) : (ofList start items).LaidOut start := by
  have h : ∀ (s : Slots α), s.LaidOut start → (items.foldl Slots.push s).LaidOut start := by
    induction items with
    | nil => exact fun s hs => hs
    | cons a items ih => exact fun s hs => ih (s.push a) (hs.push a)
  exact h _ (laidOut_startingAt start)

omit [Wide α] in
/-- Items with their slots, and the next slot, are all there is. -/
theorem ext_toList {s t : Slots α} (hlist : s.toList = t.toList) (hnext : s.next = t.next) :
    s = t := by
  obtain ⟨items, next⟩ := s
  obtain ⟨items', next'⟩ := t
  rw [toList, toList, Array.toList_inj] at hlist
  simp only at hlist hnext
  rw [hlist, hnext]

/-- Where a layout ends is determined by its items. -/
theorem Laid.stop_unique {start stop stop' : Nat} {l : List (Nat × α)} (h : Laid start l stop)
    (h' : Laid start l stop') : stop = stop' := by
  induction l generalizing start with
  | nil => exact h.trans h'.symm
  | cons item l ih => exact ih h.2 h'.2

/-- Replacing items by others of the same width leaves the layout alone. -/
theorem laid_map {start stop : Nat} {l : List (Nat × α)} {f : Nat × α → β}
    (hw : ∀ item ∈ l, Wide.width (f item) = Wide.width item.2) :
    Laid start (l.map fun item => (item.1, f item)) stop ↔ Laid start l stop := by
  induction l generalizing start with
  | nil => rfl
  | cons item l ih =>
    obtain ⟨slot, a⟩ := item
    simp only [List.map_cons, Laid]
    rw [hw (slot, a) List.mem_cons_self, ih fun item h => hw item (List.mem_cons_of_mem _ h)]

/-- Items that keep their widths keep their slots. -/
theorem LaidOut.map {start : Nat} {s : Slots α} (h : s.LaidOut start) {f : Nat → α → β}
    (hw : ∀ slot a, Wide.width (f slot a) = Wide.width a) : (s.map f).LaidOut start := by
  rw [LaidOut, toList_map]
  exact (laid_map (f := fun item => f item.1 item.2) fun item _ => hw item.1 item.2).2 h

end Layout

end Slots

end Crosswalk
