import Crosswalk.Proofs.ClassTree.Bare
import Crosswalk.Proofs.Provider.Requests

/-!
# What failed lookups leave behind

A class that is asked for is shown to the renamer, and considered as a candidate, once for being
ready and once for every time its new names find no room in a pool (`Event.count_showings`). Any
other lookup without an answer leaves no trace (`Provider.classBytes_leaves`).
-/

namespace Crosswalk

open Provider

variable {σ ρ : Type} [ModSource σ]

/-- A class that is shown to the renamer. -/
structure Showing where
  /-- The name it is asked for by. -/
  name : ClassName
  tree : ClassTree
  /-- The new name, if that becomes a candidate. -/
  candidate : Option String

/-- A slot of a count. -/
def one (p : Prop) [Decidable p] : Nat :=
  if p then 1 else 0

/-- What can become of a provider when classes are shown to its renamer, some of which find no room
in a pool. -/
structure Step (p q : Provider σ ρ) [Renamer ρ] (shown : List Showing)
    (overflows : ClassName → Bool) : Prop where
  settings : q.settings = p.settings
  renamer : q.renamer = shown.foldl (fun r e => Renamer.learn r e.tree) p.renamer
  candidates : q.candidates.names = p.candidates.names ++ shown.filterMap Showing.candidate
  count : ∀ name, one (name ∈ p.classes) + shown.countP (·.name = name) =
    one (name ∈ q.classes) + one (overflows name = true)

namespace Request

/-- A class is only shown for a request while it is not ready. -/
theorem not_mem_of_showing? {p : Provider σ ρ} {request : Request} {name : ClassName}
    {c : ClassTree}
    (h : request.showing? p = some (name, c)) : p.showing? name = some c ∧ name ∉ p.classes := by
  have hclass : p.showing? name = some c := by
    cases request with
    | classBytes name' | classTree name' =>
      obtain ⟨c', hc', hsame⟩ := Option.map_eq_some_iff.1 h
      cases hsame
      exact hc'
    | resource path =>
      rw [showing?] at h
      split at h
      · split at h
        · cases h
        · obtain ⟨c', hc', hsame⟩ := Option.map_eq_some_iff.1 h
          cases hsame
          exact hc'
      · cases h
  refine ⟨hclass, fun hmem => ?_⟩
  rw [Provider.showing?, if_pos hmem] at hclass
  cases hclass

variable [Renamer ρ]

/-- What it is to show a class to the renamer of a provider. -/
def showingOf (p : Provider σ ρ) (name : ClassName) (c : ClassTree) : Showing :=
  let renamed := c.rename (Renamer.current (Renamer.learn p.renamer c))
  ⟨name, c, if renamed.isScreen p.settings then some renamed.name else none⟩

/-- What a request shows to the renamer. -/
def shows (request : Request) (p : Provider σ ρ) : List Showing :=
  match request.showing? p with
  | none => []
  | some (name, c) => [showingOf p name c]

/-- The provider after a request. -/
def after (request : Request) (p : Provider σ ρ) : Provider σ ρ :=
  (request.perform.run p).2

/-- Whether an outcome is that the class finds no room in a pool. -/
def isOverflowed (name : ClassName) : Except ServeFault Unit → Bool
  | .ok _ => false
  | .error e => isOverflow name e

/-- Whether a request fails since the class finds no room in a pool. -/
def overflows (name : ClassName) (request : Request) (p : Provider σ ρ) : Bool :=
  isOverflowed name (request.perform.run p).1

omit [ModSource σ] in

/-- A class that is shown may become a candidate. -/
theorem names_shown (p : Provider σ ρ) (name : ClassName) (c : ClassTree) :
    (p.shown c).candidates.names =
      p.candidates.names ++ [showingOf p name c].filterMap Showing.candidate := by
  rw [shown, considered, showingOf]
  split <;> simp

/-- What a request changes comes from the classes that it shows. -/
theorem step (request : Request) (p : Provider σ ρ) :
    Step p (request.after p) (request.shows p) (request.overflows · p) := by
  have hanswers := request.answers p
  unfold after
  cases hrun : request.perform.run p with
  | mk r q =>
  rw [hrun] at hanswers
  have hoverflows : ∀ name, request.overflows name p = isOverflowed name r := by
    intro name
    rw [overflows, hrun]
  have hnone : (∀ e, r = .error e → ∀ name, isOverflow name e = false) →
      ∀ name, request.overflows name p = false := by
    intro h name
    rw [hoverflows]
    cases r with
    | ok _ => rfl
    | error e => exact h e rfl name
  -- A class is ready or has found no room once more exactly if it is shown.
  cases hanswers with
  | idle hshowing haside hfault =>
    have hshows : request.shows p = [] := by rw [shows, hshowing]
    refine ⟨haside.settings, ?_, ?_, fun name => ?_⟩
    · rw [hshows, haside.renamer]
      rfl
    · rw [hshows, haside.candidates]
      simp
    · rw [hshows, haside.classes, hnone hfault name]
      simp [one]
  | @overflow _ name c fault hshowing hencode haside =>
    have hshows : request.shows p = [showingOf p name c] := by rw [shows, hshowing]
    have hclasses : q.classes = p.classes := haside.classes
    refine ⟨haside.settings, ?_, ?_, fun name' => ?_⟩
    · rw [hshows, haside.renamer]
      rfl
    · rw [hshows, haside.candidates, names_shown p name]
    · rw [hshows, hclasses, hoverflows]
      simp [one, isOverflowed, isOverflow, showingOf]
  | @ready _ _ name c contents hshowing hencode haside hfault =>
    obtain ⟨-, hfresh⟩ := not_mem_of_showing? hshowing
    have hshows : request.shows p = [showingOf p name c] := by rw [shows, hshowing]
    have hclasses : q.classes = p.classes.insert name contents := haside.classes
    refine ⟨haside.settings, ?_, ?_, fun name' => ?_⟩
    · rw [hshows, haside.renamer]
      rfl
    · rw [hshows, haside.candidates]
      exact names_shown p name c
    · rw [hshows, hclasses, hnone hfault]
      by_cases hname : name = name'
      · subst hname
        simp [one, hfresh, showingOf]
      · simp [one, hname, showingOf]

end Request

/-! ## Runs -/

/-- What can happen to a provider: a request, or a change of the files around it. -/
inductive Event (σ : Type)
  | asked (request : Request)
  | changed (source : σ) (files : FileSystem)

namespace Event

variable [Renamer ρ]

/-- What an event shows to the renamer. -/
def shows : Event σ → Provider σ ρ → List Showing
  | asked request, p => request.shows p
  | changed _ _, _ => []

/-- The provider after an event. -/
def after : Event σ → Provider σ ρ → Provider σ ρ
  | asked request, p => request.after p
  | changed source files, p => { p with source, files }

/-- Whether an event is a request that fails since the class finds no room in a pool. -/
def overflows (name : ClassName) : Event σ → Provider σ ρ → Bool
  | asked request, p => request.overflows name p
  | changed _ _, _ => false

theorem step (event : Event σ) (p : Provider σ ρ) :
    Step p (event.after p) (event.shows p) (event.overflows · p) := by
  cases event with
  | asked request => exact request.step p
  | changed source files =>
    refine ⟨rfl, rfl, ?_, fun name => ?_⟩
    · simp [shows, after]
    · simp only [shows, after, overflows, List.countP_nil, Bool.false_eq_true]
      rfl

/-- The provider after events in order. -/
def afterAll : List (Event σ) → Provider σ ρ → Provider σ ρ
  | [], p => p
  | event :: rest, p => afterAll rest (event.after p)

/-- What events show to the renamer in order. -/
def showings : List (Event σ) → Provider σ ρ → List Showing
  | [], _ => []
  | event :: rest, p => event.shows p ++ showings rest (event.after p)

/-- How many requests fail since the class finds no room in a pool. -/
def overflowCount (name : ClassName) : List (Event σ) → Provider σ ρ → Nat
  | [], _ => 0
  | event :: rest, p =>
    one (event.overflows name p = true) + overflowCount name rest (event.after p)

/-- The renamer knows the classes it has been shown. -/
theorem renamer_afterAll (events : List (Event σ)) (p : Provider σ ρ) :
    (afterAll events p).renamer =
      (showings events p).foldl (fun r e => Renamer.learn r e.tree) p.renamer := by
  induction events generalizing p with
  | nil => rfl
  | cons event rest ih =>
    rw [afterAll, ih, showings, List.foldl_append, (event.step p).renamer]

/-- The candidates are found among the classes that are shown. -/
theorem candidates_afterAll (events : List (Event σ)) (p : Provider σ ρ) :
    (afterAll events p).candidates.names =
      p.candidates.names ++ (showings events p).filterMap Showing.candidate := by
  induction events generalizing p with
  | nil => simp [afterAll, showings]
  | cons event rest ih =>
    rw [afterAll, ih, showings, List.filterMap_append, (event.step p).candidates,
      List.append_assoc]

/-- A class is shown once for becoming ready, and once for each time it finds no room. -/
theorem count_showings (name : ClassName) (events : List (Event σ)) (p : Provider σ ρ) :
    one (name ∈ p.classes) + (showings events p).countP (·.name = name) =
      one (name ∈ (afterAll events p).classes) + overflowCount name events p := by
  induction events generalizing p with
  | nil => rfl
  | cons event rest ih =>
    have hstep := (event.step p).count name
    have hrest := ih (event.after p)
    rw [afterAll, showings, List.countP_append, overflowCount]
    omega

end Event

/-! ## Lookups without an answer -/

namespace Provider

variable [Renamer ρ]

/-- What a lookup that has no answer leaves behind: nothing, unless the class it is about finds no
room in a pool. Then the class is not ready either, but has been shown to the renamer and considered
as a candidate. -/
def Leaves (name : ClassName) (p : Provider σ ρ) (q : Provider σ ρ) :
    Except ServeFault (Option Bytes) → Prop
  | .ok (some _) => True
  | .error (.overflow name' fault) => name' = name ∧ q.classes = p.classes ∧
    ∃ c, p.showing? name = some c ∧ encode (p.served c) = .error fault ∧
      q.renamer = Renamer.learn p.renamer c ∧ q.candidates = (p.shown c).candidates
  | _ => q.classes = p.classes ∧ q.renamer = p.renamer ∧ q.candidates = p.candidates

/-- However a lookup of a class ends, it leaves no more than this. -/
theorem classBytes_leaves (name : ClassName) (p : Provider σ ρ) :
    Leaves name p ((classBytes name).run p).2 ((classBytes name).run p).1 := by
  have hlooks := looks name p
  generalize (classBytes name).run p = outcome at hlooks
  obtain ⟨r, q⟩ := outcome
  cases hlooks with
  | idle hshowing haside hready hfault =>
    have hsame : q.classes = p.classes ∧ q.renamer = p.renamer ∧ q.candidates = p.candidates :=
      ⟨haside.classes, haside.renamer, haside.candidates⟩
    match r, hfault with
    | .ok (some _), _ => exact trivial
    | .ok none, _ => exact hsame
    | .error (.source _), _ => exact hsame
    | .error (.malformed _ _), _ => exact hsame
    | .error (.mappings _), _ => exact hsame
    | .error (.overflow name' _), hfault => simpa [isOverflow] using hfault _ rfl name'
  | overflow hshowing hencode haside =>
    exact ⟨rfl, haside.classes, _, hshowing, hencode, haside.renamer, haside.candidates⟩
  | ready => exact trivial

/-- Whatever has happened to a provider, a lookup without an answer leaves a trace only where the
class it is about finds no room in a pool. The renamer knows the classes it has been shown, the
candidates are found among them, and a class has been shown once if it is ready, and once more for
every time there was no room for it. -/
theorem lookups_leave (settings : Settings) (source : σ) (r : ρ) (files : FileSystem)
    (log : Array Record) (events : List (Event σ)) :
    let p := start settings source r files log
    let q := Event.afterAll events p
    let shown := Event.showings events p
    (∀ name, Leaves name q ((classBytes name).run q).2 ((classBytes name).run q).1) ∧
      q.renamer = shown.foldl (fun r e => Renamer.learn r e.tree) r ∧
      q.candidates.names = shown.filterMap Showing.candidate ∧
      ∀ name, shown.countP (·.name = name) =
        one (name ∈ q.classes) + Event.overflowCount name events p := by
  intro p q shown
  refine ⟨fun name => classBytes_leaves name q, Event.renamer_afterAll events p, ?_, fun name => ?_⟩
  · exact Event.candidates_afterAll events p
  · have hcount := Event.count_showings name events p
    have hnone : name ∉ p.classes := by simp [p, start]
    rw [one, if_neg hnone, Nat.zero_add] at hcount
    exact hcount

/-! ## A class that never finds room -/

/-- A class `A` whose pool has no room for another text. -/
def fullClass : ClassTree :=
  .bare "A" none (.filled "A" "A" 65532)

/-- A mod of that class. -/
def fullMod : MemorySource :=
  ⟨[("A.class", (ClassFile.bare 2 0 (.filled "A" 65532)).bytes)]⟩

/-- What holds of a provider of that mod which has a new name for the class. -/
structure Crowded (p : Provider MemorySource NameTable) : Prop where
  settings : p.settings = .standard "tmp"
  source : p.source = fullMod
  names : p.renamer.classes = (∅ : Std.HashMap String String).insert "A" "B"
  classes : p.classes = ∅

/-- As long as the pool is full, the class is shown. -/
theorem Crowded.showing {p : Provider MemorySource NameTable} (h : Crowded p) :
    p.showing? (.normalize "A") = some fullClass := by
  have hfile : fullMod.files.lookup (ClassName.normalize "A").filePath =
      some (ClassFile.bare 2 0 (.filled "A" 65532)).bytes := by
    have hpath : (ClassName.normalize "A").filePath = "A.class" := by decide
    rw [hpath]
    rfl
  have hfits : Modified.Fits "A" := by
    rw [Modified.Fits]
    decide
  rw [showing?, h.classes, h.source, if_neg (by simp)]
  exact MemorySource.class?_of_lookup hfile (ClassTree.decode_filled hfits (by decide))

/-- It cannot be written under its new name. -/
theorem Crowded.encode {p : Provider MemorySource NameTable} (h : Crowded p) :
    encode (p.served fullClass) = .error ⟨.utf8 "B", PoolBuilder.slotLimit⟩ := by
  have htype : (Renamer.current (Renamer.learn p.renamer fullClass)).type "A" = "B" := by
    show (Renamer.learn p.renamer fullClass).type "A" = "B"
    have hnew : (Renamer.learn p.renamer fullClass).classes["A"]? = some "B" := by
      show p.renamer.classes["A"]? = some "B"
      simp [h.names]
    rw [NameTable.type]
    simp only [hnew]
  have hconstant : (Renamer.current (Renamer.learn p.renamer fullClass)).classConstant "A" = "B" :=
    htype
  rw [served, fullClass, ClassTree.rename_bare, ClassTree.widen_bare, ClassTree.rename_filled,
    ← fullClass, htype, hconstant, Option.map_none]
  exact ClassTree.encode_filled (by decide) rfl

/-- Asking for the class fails, and shows it to the renamer. -/
theorem Crowded.looks {p : Provider MemorySource NameTable} (h : Crowded p) :
    ((classBytes (.normalize "A")).run p).1 =
        .error (.overflow (.normalize "A") ⟨.utf8 "B", PoolBuilder.slotLimit⟩) ∧
      Crowded ((classBytes (.normalize "A")).run p).2 ∧
      ((classBytes (.normalize "A")).run p).2.renamer = Renamer.learn p.renamer fullClass := by
  have hlooks := Provider.looks (.normalize "A") p
  generalize (classBytes (.normalize "A")).run p = outcome at hlooks
  obtain ⟨r, q⟩ := outcome
  cases hlooks with
  | idle hshowing => cases h.showing.symm.trans hshowing
  | overflow hshowing hencode haside =>
    cases h.showing.symm.trans hshowing
    cases h.encode.symm.trans hencode
    refine ⟨rfl, ⟨?_, ?_, ?_, ?_⟩, haside.renamer⟩
    · exact haside.settings.trans h.settings
    · exact (haside.source (MemorySource.steady _)).trans h.source
    · rw [haside.renamer]
      exact h.names
    · exact haside.classes.trans h.classes
  | ready hshowing hencode =>
    cases h.showing.symm.trans hshowing
    cases h.encode.symm.trans hencode

/-- Such a provider, which has served nothing yet. -/
def crowded : Provider MemorySource NameTable :=
  start (.standard "tmp") fullMod (NameTable.empty.insertClass "A" "B") .empty #[]

/-- A lookup that fails is remembered by the renamer, and the class is shown to it anew by the next
one. -/
theorem shown_without_room :
    let name := ClassName.normalize "A"
    let request := Event.asked (.classBytes name)
    let q := ((classBytes name).run crowded).2
    ((classBytes name).run crowded).1 = .error (.overflow name ⟨.utf8 "B", 65535⟩) ∧
      crowded.renamer.supertypes["A"]? = none ∧ q.renamer.supertypes["A"]? = some [] ∧
      (Event.showings [request, request] crowded).countP (·.name = name) = 2 := by
  intro name request q
  have hfirst : Crowded crowded := ⟨rfl, rfl, rfl, rfl⟩
  obtain ⟨herror, hsecond, hlearn⟩ := hfirst.looks
  refine ⟨herror, ?_, ?_, ?_⟩
  · simp [crowded, start, NameTable.insertClass, NameTable.empty]
  · rw [hlearn]
    exact Std.HashMap.getElem?_insert_self
  · have hafter : request.after crowded = q := by
      show ((Request.perform (.classBytes name)).run crowded).2 = q
      rw [Request.perform, run_bind_error (Prod.ext herror rfl)]
    have hshows : ∀ p : Provider MemorySource NameTable, Crowded p →
        request.shows p = [Request.showingOf p name fullClass] := by
      intro p hp
      show Request.shows (.classBytes name) p = _
      rw [Request.shows, Request.showing?, hp.showing]
      rfl
    rw [Event.showings, Event.showings, Event.showings, hafter, hshows crowded hfirst,
      hshows q hsecond]
    simp [Request.showingOf]

end Provider

end Crosswalk
