import Mathlib.Data.List.Nodup
import Mathlib.Logic.Function.Basic
import Crosswalk.Names.ClassName

/-!
# Racks

What is kept by class can be asked for by several callers at a time. A rack has a slot for each
class that is being asked for or has been made. A caller takes the slot of its class, locks it, and
looks into it. If it is empty the caller makes the class, and either puts it into the slot or takes
the slot out of the rack again; all others who want that slot wait. One that has waited for a slot
that was taken out asks again.

However the steps of the callers are mixed, a class is only made while nothing is kept for it and no
one else makes it (`Rack.Sound`), and the callers get the answers that they would get one after the
other from a plain map (`Rack.runs_view`). So no class is made twice (`Rack.nodup_makings`), and
once a caller has got something for a class, all others get the same (`Rack.kept_of_value`). When
all callers have left, no slot is empty (`Rack.filled_of_left`).
-/

namespace Crosswalk

/-! ## Plain maps -/

/-- What is kept for each class. -/
abbrev Stock (α : Type) := ClassName → Option α

/-- How a caller gets its answer. -/
inductive Reply (α : Type)
  | kept (a : α)
  | made (a : α)
  | missed

namespace Reply

variable {α : Type}

/-- What a caller is told. -/
def value? : Reply α → Option α
  | kept a | made a => some a
  | missed => none

/-- What has been made for a caller. -/
def made? : Reply α → Option α
  | made a => some a
  | kept _ | missed => none

end Reply

namespace Stock

variable {α : Type} {m m' : Stock α} {name other : ClassName} {answer : Reply α}
  {answers : List (ClassName × Reply α)}

/-- A caller gets an answer for a class: what is kept, or what is made and kept from then on, or
nothing. -/
inductive Answers : Stock α → ClassName → Reply α → Stock α → Prop
  | kept {m : Stock α} {name : ClassName} {a : α} (hkept : m name = some a) :
    Answers m name (.kept a) m
  | made {m : Stock α} {name : ClassName} (hmissing : m name = none) (a : α) :
    Answers m name (.made a) (Function.update m name (some a))
  | missed {m : Stock α} {name : ClassName} (hmissing : m name = none) :
    Answers m name .missed m

/-- Callers get answers one after the other. -/
inductive Runs : Stock α → List (ClassName × Reply α) → Stock α → Prop
  | nil {m : Stock α} : Runs m [] m
  | cons {m next m' : Stock α} {name : ClassName} {answer : Reply α}
    {answers : List (ClassName × Reply α)} (h : Answers m name answer next)
    (hrest : Runs next answers m') : Runs m ((name, answer) :: answers) m'

/-- What has been made, in order. -/
def makings (answers : List (ClassName × Reply α)) : List (ClassName × α) :=
  answers.filterMap fun item => item.2.made?.map (item.1, ·)

theorem Runs.append {next : Stock α} {more : List (ClassName × Reply α)} (h : Runs m answers next)
    (hmore : Runs next more m') : Runs m (answers ++ more) m' := by
  induction h with
  | nil => exact hmore
  | cons h _ ih => exact .cons h (ih hmore)

theorem Runs.of_append {more : List (ClassName × Reply α)} (h : Runs m (answers ++ more) m') :
    ∃ next, Runs m answers next ∧ Runs next more m' := by
  induction answers generalizing m with
  | nil => exact ⟨m, .nil, h⟩
  | cons item answers ih =>
    cases h with
    | cons hfirst hrest =>
      obtain ⟨next, hruns, hmore⟩ := ih hrest
      exact ⟨next, .cons hfirst hruns, hmore⟩

/-- What a caller is told is kept from then on. -/
theorem Answers.kept_of_value (h : Answers m name answer m') {a : α} (ha : answer.value? = some a) :
    m' name = some a := by
  cases h with
  | kept hkept =>
    cases ha
    exact hkept
  | made =>
    cases ha
    exact Function.update_self ..
  | missed => cases ha

/-- What is kept stays. -/
theorem Answers.keeps (h : Answers m name answer m') {a : α} (hkept : m other = some a) :
    m' other = some a := by
  cases h with
  | kept | missed => exact hkept
  | made hmissing =>
    have hne : other ≠ name := by
      rintro rfl
      cases hmissing.symm.trans hkept
    rwa [Function.update_of_ne hne]

/-- Once something is kept for a class, this is the answer for it. -/
theorem Runs.answer_of_kept (h : Runs m answers m') {a : α} (hkept : m name = some a) :
    m' name = some a ∧ ∀ item ∈ answers, item.1 = name → item.2 = .kept a := by
  induction h with
  | nil => exact ⟨hkept, by simp⟩
  | @cons m next m' first answer answers h _ ih =>
    obtain ⟨hlast, hall⟩ := ih (h.keeps hkept)
    refine ⟨hlast, List.forall_mem_cons.2 ⟨?_, hall⟩⟩
    rintro rfl
    cases h with
    | kept hkept' =>
      cases hkept'.symm.trans hkept
      rfl
    | made hmissing | missed hmissing => cases hmissing.symm.trans hkept

/-- Nothing is made twice, and nothing that is kept is made. -/
theorem Runs.nodup_makings (h : Runs m answers m') : ((makings answers).map Prod.fst).Nodup ∧
    ∀ name ∈ (makings answers).map Prod.fst, m name = none := by
  induction h with
  | nil => exact ⟨List.nodup_nil, by simp [makings]⟩
  | @cons m next m' name answer answers h _ ih =>
    cases h with
    | kept | missed => exact ih
    | made hmissing a =>
      show (name :: (makings answers).map Prod.fst).Nodup ∧
        ∀ other ∈ name :: (makings answers).map Prod.fst, m other = none
      have hothers : ∀ other ∈ (makings answers).map Prod.fst, other ≠ name ∧ m other = none := by
        intro other hother
        have hnone := ih.2 other hother
        have hne : other ≠ name := by
          rintro rfl
          rw [Function.update_self] at hnone
          cases hnone
        rw [Function.update_of_ne hne] at hnone
        exact ⟨hne, hnone⟩
      refine ⟨List.nodup_cons.2 ⟨fun hmem => (hothers name hmem).1 rfl, ih.1⟩, ?_⟩
      exact List.forall_mem_cons.2 ⟨hmissing, fun other hother => (hothers other hother).2⟩

end Stock

/-! ## Slots -/

/-- What a caller is about. -/
inductive Doing (α : Type)
  | asking
  /-- Waits for the lock of a slot. -/
  | waiting (slot : Nat)
  /-- Has the lock of a slot, and is going to look into it. -/
  | looking (slot : Nat)
  | making (slot : Nat)
  /-- Has got its answer, and is going to give back the lock. -/
  | leaving (slot : Nat) (answer : Option α)

/-- The slot that a caller has taken. -/
def Doing.slot? {α : Type} : Doing α → Option Nat
  | asking => none
  | waiting slot | looking slot | making slot | leaving slot _ => some slot

/-- The slot that a caller has locked. -/
def Doing.locked? {α : Type} : Doing α → Option Nat
  | asking | waiting _ => none
  | looking slot | making slot | leaving slot _ => some slot

/-- The slot that a caller is going to fill or to take out, if it is empty. -/
def Doing.tends? {α : Type} : Doing α → Option Nat
  | asking | leaving _ _ => none
  | waiting slot | looking slot | making slot => some slot

/-- Slots that are shared by callers. Slots and callers are numbered. -/
structure Rack (α : Type) where
  slots : ClassName → Option Nat
  values : Nat → Option α
  /-- Who has locked a slot. -/
  holders : Nat → Option Nat
  /-- The class that a caller wants, and what it is about. -/
  callers : Nat → Option (ClassName × Doing α)
  /-- The number of the next slot. -/
  fresh : Nat

namespace Rack

variable {α : Type}

/-- A rack without slots. -/
def empty : Rack α :=
  ⟨fun _ => none, fun _ => none, fun _ => none, fun _ => none, 0⟩

/-- What the slots hold. -/
def view (r : Rack α) : Stock α :=
  fun name => (r.slots name).bind r.values

/-- A caller goes on to something else. -/
def turn (r : Rack α) (i : Nat) (name : ClassName) (doing : Doing α) : Rack α :=
  { r with callers := Function.update r.callers i (some (name, doing)) }

/-- A caller is done. -/
def leave (r : Rack α) (i : Nat) : Rack α :=
  { r with callers := Function.update r.callers i none }

/-- A new slot for a class. -/
def addSlot (r : Rack α) (name : ClassName) : Rack α :=
  { r with slots := Function.update r.slots name (some r.fresh), fresh := r.fresh + 1 }

/-- The lock of a slot goes to a caller, or back. -/
def lock (r : Rack α) (slot : Nat) (holder : Option Nat) : Rack α :=
  { r with holders := Function.update r.holders slot holder }

/-- Puts something into a slot. -/
def fill (r : Rack α) (slot : Nat) (a : α) : Rack α :=
  { r with values := Function.update r.values slot (some a) }

/-- Takes the slot of a class out of the rack, if it is still there. -/
def evict (r : Rack α) (name : ClassName) (slot : Nat) : Rack α :=
  if r.slots name = some slot then { r with slots := Function.update r.slots name none } else r

/-- A step of a caller, and the answer that it gets by it, if it does. -/
inductive Step : Rack α → List (ClassName × Reply α) → Rack α → Prop
  | call {r : Rack α} {i : Nat} (name : ClassName) (hcaller : r.callers i = none) :
    Step r [] (r.turn i name .asking)
  | find {r : Rack α} {i slot : Nat} {name : ClassName}
    (hcaller : r.callers i = some (name, .asking))
    (hslot : r.slots name = some slot) : Step r [] (r.turn i name (.waiting slot))
  | add {r : Rack α} {i : Nat} {name : ClassName} (hcaller : r.callers i = some (name, .asking))
    (hslot : r.slots name = none) : Step r [] ((r.addSlot name).turn i name (.waiting r.fresh))
  | lock {r : Rack α} {i slot : Nat} {name : ClassName}
    (hcaller : r.callers i = some (name, .waiting slot)) (hfree : r.holders slot = none) :
    Step r [] ((r.lock slot (some i)).turn i name (.looking slot))
  | kept {r : Rack α} {i slot : Nat} {name : ClassName} {a : α}
    (hcaller : r.callers i = some (name, .looking slot)) (hvalue : r.values slot = some a) :
    Step r [(name, .kept a)] (r.turn i name (.leaving slot (some a)))
  | again {r : Rack α} {i slot : Nat} {name : ClassName}
    (hcaller : r.callers i = some (name, .looking slot)) (hvalue : r.values slot = none)
    (hgone : r.slots name ≠ some slot) : Step r [] ((r.turn i name .asking).lock slot none)
  | make {r : Rack α} {i slot : Nat} {name : ClassName}
    (hcaller : r.callers i = some (name, .looking slot)) (hvalue : r.values slot = none)
    (hslot : r.slots name = some slot) : Step r [] (r.turn i name (.making slot))
  | made {r : Rack α} {i slot : Nat} {name : ClassName}
    (hcaller : r.callers i = some (name, .making slot)) (a : α) :
    Step r [(name, .made a)] ((r.turn i name (.leaving slot (some a))).fill slot a)
  | missed {r : Rack α} {i slot : Nat} {name : ClassName}
    (hcaller : r.callers i = some (name, .making slot)) :
    Step r [(name, .missed)] ((r.turn i name (.leaving slot none)).evict name slot)
  | leave {r : Rack α} {i slot : Nat} {name : ClassName} {answer : Option α}
    (hcaller : r.callers i = some (name, .leaving slot answer)) :
    Step r [] ((r.leave i).lock slot none)

/-- Steps of any callers, and the answers that they get, in order. -/
inductive Run : Rack α → List (ClassName × Reply α) → Rack α → Prop
  | nil {r : Rack α} : Run r [] r
  | cons {r next r' : Rack α} {answers more : List (ClassName × Reply α)} (h : Step r answers next)
    (hrest : Run next more r') : Run r (answers ++ more) r'

/-! ## What holds of every rack -/

/-- A slot has been given out, and is the slot of no other class. -/
def Belongs (r : Rack α) (name : ClassName) (slot : Nat) : Prop :=
  slot < r.fresh ∧ ∀ other, r.slots other = some slot → other = name

/-- Slots belong to one class each, what they hold stays in the rack, and whoever makes a class has
the empty slot of the class, and has locked it. -/
structure Sound (r : Rack α) : Prop where
  slots_lt : ∀ name slot, r.slots name = some slot → slot < r.fresh
  taken : ∀ i name doing slot, r.callers i = some (name, doing) → doing.slot? = some slot →
    r.Belongs name slot
  empty : ∀ slot, r.fresh ≤ slot → r.values slot = none
  apart : ∀ name other slot, r.slots name = some slot → r.slots other = some slot → name = other
  present : ∀ slot a, r.values slot = some a → ∃ name, r.slots name = some slot
  locked : ∀ i name doing slot, r.callers i = some (name, doing) → doing.locked? = some slot →
    r.holders slot = some i
  making : ∀ i name slot, r.callers i = some (name, .making slot) →
    r.slots name = some slot ∧ r.values slot = none

variable {r r' : Rack α} {i slot : Nat} {name : ClassName} {doing : Doing α}

theorem sound_empty : (empty : Rack α).Sound := by
  constructor <;> simp [empty]

@[simp] theorem callers_turn_self : (r.turn i name doing).callers i = some (name, doing) := by
  simp [turn]

/-- Only the caller itself goes on. -/
theorem callers_turn_of_ne {j : Nat} (h : j ≠ i) :
    (r.turn i name doing).callers j = r.callers j := by
  simp [turn, h]

theorem callers_turn {j : Nat} {name' : ClassName} {doing' : Doing α}
    (h : (r.turn i name doing).callers j = some (name', doing')) :
    j = i ∧ name' = name ∧ doing' = doing ∨ j ≠ i ∧ r.callers j = some (name', doing') := by
  by_cases hij : j = i
  · subst hij
    simp only [callers_turn_self, Option.some.injEq, Prod.mk.injEq] at h
    exact .inl ⟨rfl, h.1.symm, h.2.symm⟩
  · rw [callers_turn_of_ne hij] at h
    exact .inr ⟨hij, h⟩

theorem callers_leave {j : Nat} {call : ClassName × Doing α}
    (h : (r.leave i).callers j = some call) : j ≠ i ∧ r.callers j = some call := by
  rw [leave] at h
  by_cases hij : j = i
  · subst hij
    simp at h
  · simp only [Function.update_of_ne hij] at h
    exact ⟨hij, h⟩

theorem slot?_of_locked? (h : doing.locked? = some slot) : doing.slot? = some slot := by
  cases doing <;> simp_all [Doing.slot?, Doing.locked?]

namespace Sound

/-- The slot of a class belongs to it. -/
theorem belongs (h : r.Sound) (hslot : r.slots name = some slot) : r.Belongs name slot :=
  ⟨h.slots_lt name slot hslot, fun other hother => h.apart other name slot hother hslot⟩

/-- A slot that a caller has locked is locked by no other one. -/
theorem locked_unique (h : r.Sound) {j : Nat} {name' : ClassName} {doing' : Doing α}
    (hi : r.callers i = some (name, doing)) (hlocked : doing.locked? = some slot)
    (hj : r.callers j = some (name', doing')) (hlocked' : doing'.locked? = some slot) : j = i := by
  have hsame := (h.locked j name' doing' slot hj hlocked').symm.trans
    (h.locked i name doing slot hi hlocked)
  exact Option.some.inj hsame

/-- No two callers make the same class at the same time. -/
theorem making_unique (h : r.Sound) {j slot' : Nat} (hi : r.callers i = some (name, .making slot))
    (hj : r.callers j = some (name, .making slot')) : i = j := by
  have hsame := (h.making i name slot hi).1.symm.trans (h.making j name slot' hj).1
  cases hsame
  exact h.locked_unique hj rfl hi rfl

/-- A caller goes on to something that fits the slots. -/
theorem turn (h : r.Sound) (hslot : ∀ slot, doing.slot? = some slot → r.Belongs name slot)
    (hlocked : ∀ slot, doing.locked? = some slot → r.holders slot = some i)
    (hmaking : ∀ slot, doing = .making slot → r.slots name = some slot ∧ r.values slot = none) :
    (r.turn i name doing).Sound := by
  refine { h with taken := ?_, locked := ?_, making := ?_ }
  · intro j name' doing' slot hj hslot'
    rcases callers_turn hj with ⟨rfl, rfl, rfl⟩ | ⟨-, hj⟩
    · exact hslot slot hslot'
    · exact h.taken j name' doing' slot hj hslot'
  · intro j name' doing' slot hj hlocked'
    rcases callers_turn hj with ⟨rfl, rfl, rfl⟩ | ⟨-, hj⟩
    · exact hlocked slot hlocked'
    · exact h.locked j name' doing' slot hj hlocked'
  · intro j name' slot hj
    rcases callers_turn hj with ⟨rfl, rfl, hdoing⟩ | ⟨-, hj⟩
    · exact hmaking slot hdoing.symm
    · exact h.making j name' slot hj

/-- A caller keeps the slot that it has locked. -/
theorem turn_of_locked {doing' : Doing α} (h : r.Sound)
    (hcaller : r.callers i = some (name, doing'))
    (hlocked : doing'.locked? = some slot) (hsame : doing.slot? = some slot)
    (hmaking : ∀ slot, doing = .making slot → r.slots name = some slot ∧ r.values slot = none) :
    (r.turn i name doing).Sound := by
  have hslot := slot?_of_locked? hlocked
  refine h.turn (fun slot' hslot' => ?_) (fun slot' hlocked' => ?_) hmaking
  · cases hsame.symm.trans hslot'
    exact h.taken i name doing' slot hcaller hslot
  · cases hsame.symm.trans (slot?_of_locked? hlocked')
    exact h.locked i name doing' slot hcaller hlocked

theorem leave (h : r.Sound) (i : Nat) : (r.leave i).Sound :=
  { h with
    taken := fun j name doing slot hj => h.taken j name doing slot (callers_leave hj).2
    locked := fun j name doing slot hj => h.locked j name doing slot (callers_leave hj).2
    making := fun j name slot hj => h.making j name slot (callers_leave hj).2 }

/-- A class that has no slot gets a new one. -/
theorem addSlot (h : r.Sound) (hmissing : r.slots name = none) : (r.addSlot name).Sound := by
  have hslots : ∀ other slot, (r.addSlot name).slots other = some slot →
      other = name ∧ slot = r.fresh ∨ r.slots other = some slot := by
    intro other slot hother
    rw [Rack.addSlot] at hother
    by_cases hname : other = name
    · subst hname
      simp only [Function.update_self, Option.some.injEq] at hother
      exact .inl ⟨rfl, hother.symm⟩
    · simp only [Function.update_of_ne hname] at hother
      exact .inr hother
  have hkept : ∀ other slot, r.slots other = some slot →
      (r.addSlot name).slots other = some slot := by
    intro other slot hother
    have hne : other ≠ name := by
      rintro rfl
      cases hmissing.symm.trans hother
    exact (Function.update_of_ne hne ..).trans hother
  refine ⟨?_, ?_, ?_, ?_, ?_, h.locked, ?_⟩
  · intro other slot hother
    rcases hslots other slot hother with ⟨-, rfl⟩ | hother
    · exact Nat.lt_succ_self _
    · exact Nat.lt_succ_of_lt (h.slots_lt other slot hother)
  · intro i name' doing slot hi hslot
    obtain ⟨hlt, hown⟩ := h.taken i name' doing slot hi hslot
    refine ⟨Nat.lt_succ_of_lt hlt, fun other hother => ?_⟩
    rcases hslots other slot hother with ⟨-, rfl⟩ | hother
    · exact absurd hlt (Nat.lt_irrefl _)
    · exact hown other hother
  · exact fun slot hslot => h.empty slot (Nat.le_of_succ_le hslot)
  · intro first second slot hfirst hsecond
    rcases hslots first slot hfirst with ⟨hname, hslot⟩ | hfirst <;>
      rcases hslots second slot hsecond with ⟨hname', hslot'⟩ | hsecond
    · exact hname.trans hname'.symm
    · exact absurd (h.slots_lt second slot hsecond) (hslot ▸ Nat.lt_irrefl _)
    · exact absurd (h.slots_lt first slot hfirst) (hslot' ▸ Nat.lt_irrefl _)
    · exact h.apart first second slot hfirst hsecond
  · intro slot a hvalue
    obtain ⟨other, hother⟩ := h.present slot a hvalue
    exact ⟨other, hkept other slot hother⟩
  · intro i name' slot hi
    obtain ⟨hslot, hvalue⟩ := h.making i name' slot hi
    exact ⟨hkept name' slot hslot, hvalue⟩

/-- The lock of a slot changes hands while no caller has it. -/
theorem lock (h : r.Sound) (hfree : ∀ i name doing, r.callers i = some (name, doing) →
    doing.locked? ≠ some slot) (holder : Option Nat) : (r.lock slot holder).Sound := by
  refine { h with locked := fun i name doing slot' hi hlocked => ?_ }
  have hne : slot' ≠ slot := by
    rintro rfl
    exact hfree i name doing hi hlocked
  exact (Function.update_of_ne hne ..).trans (h.locked i name doing slot' hi hlocked)

/-- Something is put into the slot of a class that no one makes. -/
theorem fill (h : r.Sound) (hslot : r.slots name = some slot)
    (hmaking : ∀ i name', r.callers i ≠ some (name', .making slot)) (a : α) :
    (r.fill slot a).Sound := by
  have hvalues : ∀ slot', slot' ≠ slot → (r.fill slot a).values slot' = r.values slot' :=
    fun slot' hne => Function.update_of_ne hne ..
  refine { h with empty := ?_, present := ?_, making := ?_ }
  · intro slot' hslot'
    rw [hvalues slot' fun heq => absurd (h.slots_lt name slot hslot) (Nat.not_lt.2 (heq ▸ hslot'))]
    exact h.empty slot' hslot'
  · intro slot' a' hvalue
    by_cases hsame : slot' = slot
    · exact ⟨name, hsame ▸ hslot⟩
    · exact h.present slot' a' ((hvalues slot' hsame).symm.trans hvalue)
  · intro i name' slot' hi
    obtain ⟨hslot', hvalue⟩ := h.making i name' slot' hi
    have hne : slot' ≠ slot := by
      rintro rfl
      exact hmaking i name' hi
    exact ⟨hslot', (hvalues slot' hne).trans hvalue⟩

/-- An empty slot is taken out that no one makes a class for. -/
theorem evict (h : r.Sound) (hvalue : r.values slot = none)
    (hmaking : ∀ i name', r.callers i ≠ some (name', .making slot)) (name : ClassName) :
    (r.evict name slot).Sound := by
  rw [Rack.evict]
  split
  · next hslot =>
    have hslots : ∀ other slot', Function.update r.slots name none other = some slot' →
        r.slots other = some slot' := by
      intro other slot' hother
      by_cases hname : other = name
      · subst hname
        simp at hother
      · rwa [Function.update_of_ne hname] at hother
    have hkept : ∀ other slot', slot' ≠ slot → r.slots other = some slot' →
        Function.update r.slots name none other = some slot' := by
      intro other slot' hne hother
      have hname : other ≠ name := by
        rintro rfl
        exact hne (Option.some.inj (hother.symm.trans hslot))
      rwa [Function.update_of_ne hname]
    refine { h with slots_lt := ?_, taken := ?_, apart := ?_, present := ?_, making := ?_ }
    · exact fun other slot' hother => h.slots_lt other slot' (hslots other slot' hother)
    · intro i name' doing slot' hi hslot'
      obtain ⟨hlt, hown⟩ := h.taken i name' doing slot' hi hslot'
      exact ⟨hlt, fun other hother => hown other (hslots other slot' hother)⟩
    · exact fun first second slot' hfirst hsecond =>
        h.apart first second slot' (hslots first slot' hfirst) (hslots second slot' hsecond)
    · intro slot' a hvalue'
      obtain ⟨other, hother⟩ := h.present slot' a hvalue'
      refine ⟨other, hkept other slot' (fun heq => ?_) hother⟩
      cases (heq ▸ hvalue).symm.trans hvalue'
    · intro i name' slot' hi
      obtain ⟨hslot', hvalue'⟩ := h.making i name' slot' hi
      refine ⟨hkept name' slot' (fun heq => ?_) hslot', hvalue'⟩
      exact hmaking i name' (heq ▸ hi)
  · exact h

end Sound

/-! ## The answers are those of a plain map -/

@[simp] theorem view_turn : (r.turn i name doing).view = r.view := rfl

@[simp] theorem view_leave : (r.leave i).view = r.view := rfl

@[simp] theorem view_lock (holder : Option Nat) : (r.lock slot holder).view = r.view := rfl

/-- Nothing is kept in a new slot. -/
theorem view_addSlot (h : r.Sound) (hmissing : r.slots name = none) :
    (r.addSlot name).view = r.view := by
  funext other
  by_cases hname : other = name
  · subst hname
    have hempty := h.empty r.fresh (Nat.le_refl _)
    simp [view, addSlot, hmissing, hempty]
  · simp [view, addSlot, Function.update_of_ne hname]

/-- What is put into the slot of a class is kept for it and for no other class. -/
theorem view_fill (h : r.Sound) (hslot : r.slots name = some slot) (a : α) :
    (r.fill slot a).view = Function.update r.view name (some a) := by
  funext other
  by_cases hname : other = name
  · subst hname
    simp [view, fill, hslot]
  · rw [Function.update_of_ne hname, view, view, fill]
    refine Option.bind_congr fun slot' hslot' => ?_
    have hne : slot' ≠ slot := by
      rintro rfl
      exact hname (h.apart other name slot' hslot' hslot)
    exact Function.update_of_ne hne ..

/-- Nothing is lost with an empty slot. -/
theorem view_evict (hvalue : r.values slot = none) (name : ClassName) :
    (r.evict name slot).view = r.view := by
  rw [evict]
  split
  · next hslot =>
    funext other
    by_cases hname : other = name
    · subst hname
      simp [view, hslot, hvalue]
    · simp [view, Function.update_of_ne hname]
  · rfl

/-- A filled slot that a caller has taken holds what is kept for its class. -/
theorem Sound.view_of_value (h : r.Sound) (hcaller : r.callers i = some (name, doing))
    (hslot : doing.slot? = some slot) {a : α} (hvalue : r.values slot = some a) :
    r.view name = some a := by
  obtain ⟨other, hother⟩ := h.present slot a hvalue
  obtain rfl := (h.taken i name doing slot hcaller hslot).2 other hother
  rw [view, hother]
  exact hvalue

/-- Nothing is kept for a class while it is made. -/
theorem Sound.view_of_making (h : r.Sound) (hcaller : r.callers i = some (name, .making slot)) :
    r.view name = none := by
  obtain ⟨hslot, hvalue⟩ := h.making i name slot hcaller
  rw [view, hslot]
  exact hvalue

/-- A caller that has the answer for a class does not make it any more, and no other one does. -/
theorem Sound.not_making_turn (h : r.Sound) (hcaller : r.callers i = some (name, .making slot))
    (answer : Option α) (j : Nat) (name' : ClassName) :
    (r.turn i name (.leaving slot answer)).callers j ≠ some (name', .making slot) := by
  intro hj
  rcases callers_turn hj with ⟨-, -, hdoing⟩ | ⟨hne, hj⟩
  · cases hdoing
  · exact hne (h.locked_unique hcaller rfl hj rfl)

/-- A step keeps racks sound, and the answer that comes of it is that of a plain map. -/
theorem Step.runs {answers : List (ClassName × Reply α)} (h : r.Sound) (hstep : Step r answers r') :
    r'.Sound ∧ Stock.Runs r.view answers r'.view := by
  cases hstep with
  | call name hcaller =>
    exact ⟨h.turn (by simp [Doing.slot?]) (by simp [Doing.locked?]) (by simp), .nil⟩
  | @find i slot name hcaller hslot =>
    refine ⟨h.turn (fun slot' hslot' => ?_) (by simp [Doing.locked?]) (by simp), .nil⟩
    cases hslot'
    exact h.belongs hslot
  | @add i name hcaller hslot =>
    have hadded := h.addSlot hslot
    have hnew : (r.addSlot name).slots name = some r.fresh := Function.update_self ..
    refine ⟨hadded.turn (fun slot' hslot' => ?_) (by simp [Doing.locked?]) (by simp), ?_⟩
    · cases hslot'
      exact hadded.belongs hnew
    · rw [view_turn, view_addSlot h hslot]
      exact .nil
  | @lock i slot name hcaller hfree =>
    have hunlocked : ∀ j name' doing, r.callers j = some (name', doing) →
        doing.locked? ≠ some slot := by
      intro j name' doing hj hlocked
      cases hfree.symm.trans (h.locked j name' doing slot hj hlocked)
    -- the caller gets the lock first, and what it is about then fits
    have hlock := h.lock hunlocked (some i)
    refine ⟨hlock.turn (fun slot' hslot' => ?_) (fun slot' hlocked => ?_) (by simp), .nil⟩
    · cases hslot'
      exact h.taken i name _ slot hcaller rfl
    · cases hlocked
      exact Function.update_self ..
  | kept hcaller hvalue =>
    refine ⟨h.turn_of_locked hcaller rfl rfl (by simp), ?_⟩
    exact .cons (.kept (h.view_of_value hcaller rfl hvalue)) .nil
  | @again i slot name hcaller hvalue hgone =>
    have hturn : (r.turn i name .asking).Sound :=
      h.turn (by simp [Doing.slot?]) (by simp [Doing.locked?]) (by simp)
    refine ⟨hturn.lock (fun j name' doing hj hlocked => ?_) none, .nil⟩
    rcases callers_turn hj with ⟨-, -, rfl⟩ | ⟨hne, hj⟩
    · cases hlocked
    · exact hne (h.locked_unique hcaller rfl hj hlocked)
  | @make i slot name hcaller hvalue hslot =>
    refine ⟨h.turn_of_locked hcaller rfl rfl fun slot' hslot' => ?_, .nil⟩
    cases hslot'
    exact ⟨hslot, hvalue⟩
  | @made i slot name hcaller a =>
    have hturn : (r.turn i name (.leaving slot (some a))).Sound :=
      h.turn_of_locked hcaller rfl rfl (by simp)
    have hslot := (h.making i name slot hcaller).1
    refine ⟨hturn.fill hslot (h.not_making_turn hcaller _) a, ?_⟩
    -- the only step that changes what the slots hold
    rw [view_fill hturn hslot, view_turn]
    exact .cons (.made (h.view_of_making hcaller) a) .nil
  | @missed i slot name hcaller =>
    have hturn : (r.turn i name (.leaving slot none)).Sound :=
      h.turn_of_locked hcaller rfl rfl (by simp)
    -- the slot goes after the caller has stopped making, so no one makes a class for it
    have hvalue : (r.turn i name (.leaving slot none)).values slot = none :=
      (h.making i name slot hcaller).2
    refine ⟨hturn.evict hvalue (h.not_making_turn hcaller _) name, ?_⟩
    rw [view_evict hvalue, view_turn]
    exact .cons (.missed (h.view_of_making hcaller)) .nil
  | leave hcaller =>
    refine ⟨(h.leave _).lock (fun j name' doing hj hlocked => ?_) none, .nil⟩
    obtain ⟨hne, hj⟩ := callers_leave hj
    exact hne (h.locked_unique hcaller rfl hj hlocked)

/-- However the steps of callers are mixed, the answers are those that the callers would get one
after the other from a plain map. -/
theorem runs_view {answers : List (ClassName × Reply α)} (h : r.Sound) (hrun : Run r answers r') :
    r'.Sound ∧ Stock.Runs r.view answers r'.view := by
  induction hrun with
  | nil => exact ⟨h, .nil⟩
  | cons hstep _ ih =>
    obtain ⟨hnext, hruns⟩ := hstep.runs h
    obtain ⟨hlast, hmore⟩ := ih hnext
    exact ⟨hlast, hruns.append hmore⟩

/-- No class is made twice. -/
theorem nodup_makings {answers : List (ClassName × Reply α)} (hrun : Run .empty answers r') :
    ((Stock.makings answers).map Prod.fst).Nodup :=
  (runs_view sound_empty hrun).2.nodup_makings.1

/-- Once a caller has got something for a class, all others get the same. -/
theorem kept_of_value {earlier later : List (ClassName × Reply α)} {answer : Reply α} {a : α}
    (hrun : Run .empty (earlier ++ (name, answer) :: later) r') (ha : answer.value? = some a) :
    ∀ item ∈ later, item.1 = name → item.2 = .kept a := by
  obtain ⟨-, hruns⟩ := runs_view sound_empty hrun
  obtain ⟨m, -, hrest⟩ := hruns.of_append
  cases hrest with
  | cons hanswer hlater => exact (hlater.answer_of_kept (hanswer.kept_of_value ha)).2

/-! ## No slot is left behind -/

/-- Every empty slot has a caller that is going to fill it or to take it out. -/
def Tended (r : Rack α) : Prop :=
  ∀ name slot, r.slots name = some slot → r.values slot = none →
    ∃ i doing, r.callers i = some (name, doing) ∧ doing.tends? = some slot

namespace Tended

/-- A caller may go on if it tends no empty slot, or goes on tending it. -/
theorem turn (h : r.Tended) (hkept : ∀ name' doing' slot, r.callers i = some (name', doing') →
      doing'.tends? = some slot → r.slots name' = some slot → r.values slot = none →
        name' = name ∧ doing.tends? = some slot) :
    (r.turn i name doing).Tended := by
  intro name' slot hslot hvalue
  obtain ⟨j, doing', hj, htends⟩ := h name' slot hslot hvalue
  by_cases hij : j = i
  · subst hij
    obtain ⟨rfl, htends'⟩ := hkept name' doing' slot hj htends hslot hvalue
    exact ⟨j, doing, callers_turn_self, htends'⟩
  · exact ⟨j, doing', (callers_turn_of_ne hij).trans hj, htends⟩

theorem turn_of_caller {old : Doing α} (h : r.Tended) (hcaller : r.callers i = some (name, old))
    (hkept : ∀ slot, old.tends? = some slot → r.slots name = some slot → r.values slot = none →
      doing.tends? = some slot) : (r.turn i name doing).Tended := by
  refine h.turn fun name' doing' slot hi htends hslot hvalue => ?_
  cases hcaller.symm.trans hi
  exact ⟨rfl, hkept slot htends hslot hvalue⟩

/-- A caller that tends no slot may leave. -/
theorem leave (h : r.Tended) {doing : Doing α} (hcaller : r.callers i = some (name, doing))
    (hfree : doing.tends? = none) : (r.leave i).Tended := by
  intro name' slot hslot hvalue
  obtain ⟨j, doing', hj, htends⟩ := h name' slot hslot hvalue
  have hij : j ≠ i := by
    rintro rfl
    cases hcaller.symm.trans hj
    cases hfree.symm.trans htends
  exact ⟨j, doing', (Function.update_of_ne hij ..).trans hj, htends⟩

/-- A new slot is tended by the caller that waits for it. -/
theorem addSlot (h : r.Tended) (hcaller : r.callers i = some (name, .asking)) :
    ((r.addSlot name).turn i name (.waiting r.fresh)).Tended := by
  intro name' slot hslot hvalue
  by_cases hname : name' = name
  · subst hname
    cases (Function.update_self ..).symm.trans hslot
    exact ⟨i, .waiting r.fresh, callers_turn_self, rfl⟩
  · obtain ⟨j, doing, hj, htends⟩ :=
      h name' slot ((Function.update_of_ne hname ..).symm.trans hslot) hvalue
    have hij : j ≠ i := by
      rintro rfl
      cases hcaller.symm.trans hj
      cases htends
    exact ⟨j, doing, (callers_turn_of_ne hij).trans hj, htends⟩

/-- A slot that is filled needs no one any more. -/
theorem fill (h : r.Tended) (slot : Nat) (a : α) : (r.fill slot a).Tended := by
  intro name' slot' hslot hvalue
  have hne : slot' ≠ slot := by
    rintro rfl
    cases (Function.update_self ..).symm.trans hvalue
  exact h name' slot' hslot ((Function.update_of_ne hne ..).symm.trans hvalue)

/-- Nor does a slot that is taken out. -/
theorem evict (h : r.Tended) (name : ClassName) (slot : Nat) : (r.evict name slot).Tended := by
  rw [Rack.evict]
  split
  · intro name' slot' hslot hvalue
    have hne : name' ≠ name := by
      rintro rfl
      cases (Function.update_self ..).symm.trans hslot
    exact h name' slot' ((Function.update_of_ne hne ..).symm.trans hslot) hvalue
  · exact h

end Tended

theorem callers_evict (r : Rack α) (name : ClassName) (slot : Nat) :
    (r.evict name slot).callers = r.callers := by
  rw [evict]
  split <;> rfl

/-- The slot that is taken out of the rack is not there any more. -/
theorem slots_evict_ne (r : Rack α) (name : ClassName) (slot : Nat) :
    (r.evict name slot).slots name ≠ some slot := by
  rw [evict]
  split
  · simp
  · next hslot => exact hslot

/-- It makes no difference whether the caller goes on before or after that. -/
theorem evict_turn (r : Rack α) (i : Nat) (name : ClassName) (doing : Doing α) (slot : Nat) :
    (r.turn i name doing).evict name slot = (r.evict name slot).turn i name doing := by
  by_cases hslot : r.slots name = some slot <;> simp [evict, turn, hslot]

/-- A step leaves no slot behind. -/
theorem Step.tended {answers : List (ClassName × Reply α)} (h : r.Tended)
    (hstep : Step r answers r') : r'.Tended := by
  cases hstep with
  | call name hcaller => exact h.turn fun _ _ _ hi => by cases hcaller.symm.trans hi
  | find hcaller hslot => exact h.turn_of_caller hcaller fun _ htends => by cases htends
  | add hcaller hslot => exact h.addSlot hcaller
  | @lock i slot name hcaller hfree =>
    have hlocked : (r.lock slot (some i)).Tended := h
    exact hlocked.turn_of_caller hcaller fun _ htends _ _ => htends
  | kept hcaller hvalue =>
    refine h.turn_of_caller hcaller fun _ htends _ hempty => ?_
    cases htends
    cases hvalue.symm.trans hempty
  | again hcaller hvalue hgone =>
    refine h.turn_of_caller hcaller fun _ htends hslot => ?_
    cases htends
    exact absurd hslot hgone
  | make hcaller hvalue hslot => exact h.turn_of_caller hcaller fun _ htends _ _ => htends
  | @made i slot name hcaller a =>
    refine (h.fill slot a).turn_of_caller hcaller fun _ htends _ hempty => ?_
    cases htends
    cases (Function.update_self ..).symm.trans hempty
  | @missed i slot name hcaller =>
    -- The slot goes with the caller that tends it.
    rw [evict_turn]
    rw [← callers_evict r name slot] at hcaller
    refine (h.evict name slot).turn_of_caller hcaller fun _ htends hslot => ?_
    cases htends
    exact absurd hslot (slots_evict_ne r name slot)
  | leave hcaller => exact h.leave hcaller rfl

/-- Nor do the steps of any callers. -/
theorem Run.tended {answers : List (ClassName × Reply α)} (h : r.Tended)
    (hrun : Run r answers r') : r'.Tended := by
  induction hrun with
  | nil => exact h
  | cons hstep _ ih => exact ih (hstep.tended h)

/-- Once all callers have left, every slot that is still in the rack holds something. -/
theorem filled_of_left {answers : List (ClassName × Reply α)} (hrun : Run .empty answers r)
    (hleft : ∀ i, r.callers i = none) (hslot : r.slots name = some slot) :
    ∃ a, r.values slot = some a := by
  have htended : r.Tended := hrun.tended fun _ _ hslot => by cases hslot
  refine Option.ne_none_iff_exists'.1 fun hvalue => ?_
  obtain ⟨i, doing, hcaller, -⟩ := htended name slot hslot hvalue
  cases (hleft i).symm.trans hcaller

end Rack

end Crosswalk
