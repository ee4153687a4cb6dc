import Crosswalk.Proofs.Provider.Keeping
import Crosswalk.Proofs.Provider.Rack

/-!
# Shelves and racks

A provider looks up a class on a shelf as one caller of a rack would: the answer is that of a plain
map (`Provider.Shelf.answers_lookup`). Callers that come one after the other can get every answer of
a plain map from a rack (`Rack.exists_run`). So what a provider keeps after any events is what a
rack holds from which the classes have been got that were made, each of them once and in this order
(`Event.exists_rack`).
-/

namespace Crosswalk

/-! ## One caller after the other -/

namespace Stock

variable {α : Type} {m m' m'' : Stock α} {name : ClassName} {answer : Reply α}

/-- With its answer it is clear what a caller leaves behind. -/
theorem Answers.unique (h : Answers m name answer m') (h' : Answers m name answer m'') :
    m' = m'' := by
  cases h <;> cases h' <;> rfl

theorem Runs.unique {answers : List (ClassName × Reply α)} (h : Runs m answers m')
    (h' : Runs m answers m'') : m' = m'' := by
  induction h with
  | nil =>
    cases h'
    rfl
  | cons h _ ih =>
    cases h' with
    | cons hfirst hrest =>
      obtain rfl := h.unique hfirst
      exact ih hrest

end Stock

namespace Rack

variable {α : Type} {r r' next : Rack α} {name : ClassName} {doing : Doing α} {slot : Nat}
  {answers more : List (ClassName × Reply α)} {answer : Reply α} {m : Stock α}

theorem Step.run (h : Step r answers r') : Run r answers r' := by
  have hrun := Run.cons h .nil
  rwa [List.append_nil] at hrun

theorem Run.trans (h : Run r answers next) (hmore : Run next more r') :
    Run r (answers ++ more) r' := by
  induction h with
  | nil => exact hmore
  | cons hstep _ ih =>
    rw [List.append_assoc]
    exact .cons hstep (ih hmore)

/-- No caller is there, and no slot is locked. -/
structure Quiet (r : Rack α) : Prop where
  callers : ∀ i, r.callers i = none
  holders : ∀ slot, r.holders slot = none

/-- Only one caller is there, and no slot but its own can be locked. -/
structure Alone (r : Rack α) (name : ClassName) (doing : Doing α) (slot : Nat) : Prop where
  caller : r.callers 0 = some (name, doing)
  others : ∀ i, i ≠ 0 → r.callers i = none
  holders : ∀ other, other ≠ slot → r.holders other = none

theorem quiet_empty : (empty : Rack α).Quiet :=
  ⟨fun _ => rfl, fun _ => rfl⟩

namespace Alone

theorem turn (h : r.Alone name doing slot) (doing' : Doing α) :
    (r.turn 0 name doing').Alone name doing' slot where
  caller := callers_turn_self
  others i hi := (callers_turn_of_ne hi).trans (h.others i hi)
  holders := h.holders

theorem fill (h : r.Alone name doing slot) (a : α) : (r.fill slot a).Alone name doing slot :=
  ⟨h.caller, h.others, h.holders⟩

theorem evict (h : r.Alone name doing slot) : (r.evict name slot).Alone name doing slot := by
  rw [Rack.evict]
  split
  · exact ⟨h.caller, h.others, h.holders⟩
  · exact h

/-- When the caller leaves, all is quiet. -/
theorem leave {a : Option α} (h : r.Alone name (.leaving slot a) slot) :
    ∃ r', Run r [] r' ∧ r'.Quiet := by
  refine ⟨_, (Step.leave h.caller).run, fun i => ?_, fun other => ?_⟩
  · by_cases hi : i = 0
    · simp [Rack.leave, Rack.lock, hi]
    · simp [Rack.leave, Rack.lock, hi, h.others i hi]
  · by_cases hother : other = slot
    · simp [Rack.lock, hother]
    · simp [Rack.leave, Rack.lock, hother, h.holders other hother]

end Alone

/-- A caller that is alone gets to look into the slot of its class. -/
theorem Quiet.exists_looking (h : r.Quiet) (name : ClassName) : ∃ r' slot, Run r [] r' ∧
    r'.Alone name (.looking slot) slot ∧ r'.slots name = some slot := by
  have hcall := (Step.call name (h.callers 0)).run
  have hasking : (r.turn 0 name .asking).callers 0 = some (name, .asking) := callers_turn_self
  -- Once the caller waits for a slot, it gets the lock.
  have hlock : ∀ (waiting : Rack α) (slot : Nat), waiting.Alone name (.waiting slot) slot →
      waiting.holders slot = none → waiting.slots name = some slot →
      ∃ r', Run waiting [] r' ∧ r'.Alone name (.looking slot) slot ∧ r'.slots name = some slot := by
    intro waiting slot halone hfree hslot
    refine ⟨_, (Step.lock halone.caller hfree).run, ?_, hslot⟩
    have hlocked : (waiting.lock slot (some 0)).Alone name (.waiting slot) slot :=
      ⟨halone.caller, halone.others, fun other hother =>
        (Function.update_of_ne hother ..).trans (halone.holders other hother)⟩
    exact hlocked.turn _
  have halone : ∀ slot, (r.turn 0 name .asking).Alone name .asking slot := fun slot =>
    ⟨hasking, fun i hi => (callers_turn_of_ne hi).trans (h.callers i), fun other _ =>
      h.holders other⟩
  cases hslot : r.slots name with
  | some slot =>
    obtain ⟨r', hrun, hlooking⟩ :=
      hlock _ slot ((halone slot).turn (.waiting slot)) (h.holders slot) hslot
    exact ⟨r', slot, hcall.trans ((Step.find hasking hslot).run.trans hrun), hlooking⟩
  | none =>
    have hadded : ((r.turn 0 name .asking).addSlot name).Alone name .asking r.fresh :=
      ⟨hasking, (halone r.fresh).others, (halone r.fresh).holders⟩
    obtain ⟨r', hrun, hlooking⟩ := hlock _ r.fresh (hadded.turn (.waiting r.fresh))
      (h.holders r.fresh) (Function.update_self ..)
    exact ⟨r', r.fresh, hcall.trans ((Step.add hasking hslot).run.trans hrun), hlooking⟩

/-- A caller that is alone can get any answer of a plain map. -/
theorem exists_run_of_answers (h : r.Sound) (hquiet : r.Quiet)
    (hanswer : Stock.Answers r.view name answer m) :
    ∃ r', Run r [(name, answer)] r' ∧ r'.Quiet := by
  obtain ⟨looking, slot, hrun, halone, hslot⟩ := hquiet.exists_looking name
  have hview := (runs_view h hrun).2.unique .nil
  have hvalue : looking.values slot = r.view name := by
    rw [← hview, view, hslot]
    rfl
  cases hanswer with
  | kept hkept =>
    have hstep := Step.kept halone.caller (hvalue.trans hkept)
    obtain ⟨r', hleave, hquiet'⟩ := (halone.turn _).leave
    exact ⟨r', hrun.trans (hstep.run.trans hleave), hquiet'⟩
  | made hmissing a =>
    have hmake := Step.make halone.caller (hvalue.trans hmissing) hslot
    have hmaking := halone.turn (.making slot)
    have hstep := Step.made hmaking.caller a
    obtain ⟨r', hleave, hquiet'⟩ := ((hmaking.turn _).fill a).leave
    exact ⟨r', hrun.trans (hmake.run.trans (hstep.run.trans hleave)), hquiet'⟩
  | missed hmissing =>
    have hmake := Step.make halone.caller (hvalue.trans hmissing) hslot
    have hmaking := halone.turn (.making slot)
    have hstep := Step.missed hmaking.caller
    obtain ⟨r', hleave, hquiet'⟩ := (hmaking.turn _).evict.leave
    exact ⟨r', hrun.trans (hmake.run.trans (hstep.run.trans hleave)), hquiet'⟩

/-- Callers that come one after the other can get all answers of a plain map. -/
theorem exists_run (h : r.Sound) (hquiet : r.Quiet) (hruns : Stock.Runs r.view answers m) :
    ∃ r', Run r answers r' ∧ r'.view = m := by
  generalize hfirst : r.view = first at hruns
  induction hruns generalizing r with
  | nil => exact ⟨r, .nil, hfirst⟩
  | cons hanswer _ ih =>
    subst hfirst
    obtain ⟨next, hrun, hquiet'⟩ := exists_run_of_answers h hquiet hanswer
    obtain ⟨hsound, hruns⟩ := runs_view h hrun
    obtain ⟨r', hrest, hlast⟩ := ih hsound hquiet' (hruns.unique (.cons hanswer .nil))
    exact ⟨r', hrun.trans hrest, hlast⟩

/-- So the answers that can be got from a rack are those that can be got from a plain map. -/
theorem exists_run_iff : (∃ r' : Rack α, Run .empty answers r' ∧ r'.view = m) ↔
    Stock.Runs (fun _ => none) answers m := by
  constructor
  · rintro ⟨r', hrun, rfl⟩
    exact (runs_view sound_empty hrun).2
  · exact fun hruns => exists_run sound_empty quiet_empty hruns

end Rack

/-! ## The shelves of a provider -/

namespace Provider

variable {σ ρ α : Type}

namespace Shelf

/-- What is kept on a shelf. -/
def stock (s : Shelf σ ρ α) (p : Provider σ ρ) : Stock α :=
  fun name => (s.items p)[name]?

variable {s : Shelf σ ρ α} {name : ClassName} {make : Serving σ ρ (Option α)} {p q : Provider σ ρ}

theorem stock_congr (h : s.items q = s.items p) : s.stock q = s.stock p := by
  funext other
  simp only [stock, h]

/-- What is put on a shelf is kept there. -/
theorem stock_put (p q : Provider σ ρ) (name : ClassName) (a : α) :
    s.stock (s.put ((s.items p).insert name a) q) = Function.update (s.stock p) name (some a) := by
  funext other
  rw [stock, s.items_put, Std.HashMap.getElem?_insert]
  by_cases hname : other = name
  · subst hname
    simp
  · rw [Function.update_of_ne hname, if_neg (by simpa using Ne.symm hname)]
    rfl

/-- A lookup is an answer of a plain map, unless the shelf is changed while something is made. -/
theorem answers_lookup (hmake : s.items (make.run p).2 = s.items p) :
    let outcome := (s.lookup name make).run p
    ∃ answer, Stock.Answers (s.stock p) name answer (s.stock outcome.2) ∧
      ∀ a, answer.value? = some a ↔ outcome.1 = .ok (some a) := by
  have hlooks := looks_lookup s name make p
  generalize (s.lookup name make).run p = outcome at hlooks
  obtain ⟨r, q⟩ := outcome
  cases hlooks with
  | @kept a hitem => exact ⟨.kept a, .kept hitem, by simp [Reply.value?]⟩
  | @made a q hitem hrun =>
    refine ⟨.made a, ?_, by simp [Reply.value?]⟩
    rw [hrun] at hmake
    rw [stock_put, stock_congr hmake]
    exact .made hitem a
  | missed hitem hrun hr =>
    refine ⟨.missed, ?_, fun a => by simpa [Reply.value?] using hr a⟩
    rw [hrun] at hmake
    rw [stock_congr hmake]
    exact .missed hitem

end Shelf

variable [ModSource σ] [Renamer ρ]

/-- The bytes of a class are an answer of the classes that are ready. -/
theorem answers_classBytes (name : ClassName) (p : Provider σ ρ) :
    let outcome := (classBytes name).run p
    ∃ answer, Stock.Answers (Shelf.ready.stock p) name answer (Shelf.ready.stock outcome.2) ∧
      ∀ contents, answer.value? = some contents ↔ outcome.1 = .ok (some contents) := by
  rw [classBytes_eq]
  exact Shelf.answers_lookup (transform_keeps name p).1

/-- So is the file of a class one of the files, though classes become ready while it is made. -/
theorem answers_classResource (name : ClassName) (p : Provider σ ρ) :
    let outcome := (classResource name).run p
    ∃ answer, Stock.Answers (Shelf.placed.stock p) name answer (Shelf.placed.stock outcome.2) ∧
      ∀ location, answer.value? = some location ↔ outcome.1 = .ok (some location) := by
  rw [classResource_eq_lookup]
  exact Shelf.answers_lookup (keeps_place name p).2.1

end Provider

/-! ## Runs -/

open Provider

variable {σ ρ : Type} [ModSource σ] [Renamer ρ]

/-- Classes that are made for their callers. -/
def madeAnswers (made : List (ClassName × Bytes)) : List (ClassName × Reply Bytes) :=
  made.map fun item => (item.1, .made item.2)

theorem Request.runs_ready (request : Request) {p : Provider σ ρ}
    (hplaced : ∀ name ∈ p.materialized, name ∈ p.classes) :
    Stock.Runs (Shelf.ready.stock p) (madeAnswers (request.makes p))
      (Shelf.ready.stock (request.after p)) := by
  have hclasses : Shelf.ready.items (request.after p) = stocked p.classes (request.makes p) :=
    (request.keeps_after hplaced).1
  rcases request.makes_cases p with hmakes | ⟨name, contents, hfresh, hmakes⟩
  · rw [hmakes] at hclasses ⊢
    have hsame : Shelf.ready.stock (request.after p) = Shelf.ready.stock p :=
      Shelf.stock_congr hclasses
    rw [hsame]
    exact .nil
  · rw [hmakes] at hclasses ⊢
    have hput : Shelf.ready.stock (request.after p) =
        Function.update (Shelf.ready.stock p) name (some contents) := by
      rw [← Shelf.stock_put p (request.after p) name contents]
      exact Shelf.stock_congr hclasses
    rw [hput]
    exact .cons (.made (Std.HashMap.getElem?_eq_none hfresh) contents) .nil

namespace Event

/-- Whatever happens, the classes that are ready are those of a plain map from which each has been
made once. -/
theorem runs_ready (events : List (Event σ)) {p : Provider σ ρ} {made : List (ClassName × Bytes)}
    (h : Coherent p made) : Stock.Runs (Shelf.ready.stock p) (madeAnswers (makings events p))
      (Shelf.ready.stock (afterAll events p)) := by
  induction events generalizing p made with
  | nil => exact .nil
  | cons event rest ih =>
    have hfirst : Stock.Runs (Shelf.ready.stock p) (madeAnswers (event.makes p))
        (Shelf.ready.stock (event.after p)) := by
      cases event with
      | asked request => exact request.runs_ready h.placed
      | changed source files => exact .nil
    rw [makings, madeAnswers, List.map_append]
    exact hfirst.append (ih (event.coherent_after h))

/-- So they are what the slots of a rack hold from which the same classes have been got. -/
theorem exists_rack (settings : Settings) (source : σ) (r : ρ) (files : FileSystem)
    (log : Array Record) (events : List (Event σ)) :
    let p := start settings source r files log
    ∃ rack, Rack.Run .empty (madeAnswers (makings events p)) rack ∧
      rack.view = Shelf.ready.stock (afterAll events p) := by
  intro p
  have hstart : Shelf.ready.stock p = fun _ => none := by
    funext name
    simp [Shelf.stock, p, start]
  have hruns := runs_ready events (coherent_start settings source r files log)
  rw [hstart] at hruns
  exact Rack.exists_run_iff.2 hruns

end Event

end Crosswalk
