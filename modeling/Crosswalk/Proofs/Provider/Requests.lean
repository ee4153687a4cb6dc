import Crosswalk.Proofs.Provider.Sources
import Crosswalk.Proofs.Provider.Steps

/-!
# Requests

A provider is asked for classes, for their bytes and for resources, and a class file can be asked
for all three ways. `Request.Answers` lists what such a request can do to the classes of a provider:
nothing, or it shows one class to the renamer, which then becomes ready or finds no room in a pool.
-/

namespace Crosswalk

namespace Provider

variable {σ ρ α β : Type} [ModSource σ]

/-! ## What leaves classes alone -/

/-- No class has been shown to the renamer or become ready, and a source that stays as it is has
stayed as it is. -/
structure Aside (p q : Provider σ ρ) : Prop where
  settings : q.settings = p.settings
  renamer : q.renamer = p.renamer
  candidates : q.candidates = p.candidates
  classes : q.classes = p.classes
  source : ModSource.Steady p.source → q.source = p.source

namespace Aside

theorem refl (p : Provider σ ρ) : Aside p p :=
  ⟨rfl, rfl, rfl, rfl, fun _ => rfl⟩

theorem trans {p q r : Provider σ ρ} (h : Aside p q) (h' : Aside q r) : Aside p r where
  settings := h'.settings.trans h.settings
  renamer := h'.renamer.trans h.renamer
  candidates := h'.candidates.trans h.candidates
  classes := h'.classes.trans h.classes
  source hsteady := by
    have hsame := h.source hsteady
    rw [← hsame] at hsteady
    exact (h'.source hsteady).trans hsame

end Aside

/-- Whether the fault is that the class with its new names finds no room in a pool. -/
def isOverflow (name : ClassName) : ServeFault → Bool
  | .overflow name' _ => name' = name
  | _ => false

/-- The step leaves classes alone, and does not fail for want of room in a pool. -/
structure Harmless (x : Serving σ ρ α) : Prop where
  aside : ∀ p, Aside p (x.run p).2
  fault : ∀ p e, (x.run p).1 = .error e → ∀ name, isOverflow name e = false

namespace Harmless

/-- A step that never fails is harmless if all it changes is aside. -/
theorem of_ok {x : Serving σ ρ α} (h : ∀ p, ∃ a q, x.run p = (.ok a, q) ∧ Aside p q) :
    Harmless x := by
  constructor
  · intro p
    obtain ⟨a, q, hrun, haside⟩ := h p
    rw [hrun]
    exact haside
  · intro p e he
    obtain ⟨a, q, hrun, -⟩ := h p
    rw [hrun] at he
    cases he

theorem pure (a : α) : Harmless (pure a : Serving σ ρ α) :=
  of_ok fun p => ⟨a, p, rfl, .refl p⟩

theorem get : Harmless (get : Serving σ ρ (Provider σ ρ)) :=
  of_ok fun p => ⟨p, p, rfl, .refl p⟩

/-- Harmless steps may follow each other. -/
theorem bind {x : Serving σ ρ α} {f : α → Serving σ ρ β} (hx : Harmless x)
    (hf : ∀ a, Harmless (f a)) : Harmless (x >>= f) := by
  constructor
  · intro p
    have hfirst := hx.aside p
    rcases h : x.run p with ⟨e | a, q⟩
    · rw [run_bind_error h]
      rw [h] at hfirst
      exact hfirst
    · rw [run_bind_ok h]
      rw [h] at hfirst
      exact hfirst.trans ((hf a).aside q)
  · intro p e he
    rcases h : x.run p with ⟨e' | a, q⟩
    · rw [run_bind_error h] at he
      cases he
      exact hx.fault p e (by rw [h])
    · rw [run_bind_ok h] at he
      exact (hf a).fault q e he

theorem report (level : Level) (message : String) :
    Harmless (report level message : Serving σ ρ Unit) :=
  of_ok fun p => ⟨(), _, run_report level message p, rfl, rfl, rfl, rfl, fun _ => rfl⟩

theorem has (path : String) : Harmless (has path : Serving σ ρ Bool) :=
  of_ok fun p => ⟨_, p, run_has path p, .refl p⟩

theorem trySave (path : String) (contents : Bytes) :
    Harmless (trySave path contents : Serving σ ρ (Except FileFault Unit)) :=
  of_ok fun p => ⟨_, _, run_trySave path contents p, rfl, rfl, rfl, rfl, fun _ => rfl⟩

theorem tryRead (path : String) :
    Harmless (tryRead path : Serving σ ρ (Except SourceFault Bytes)) :=
  of_ok fun p => ⟨_, _, run_tryRead path p, rfl, rfl, rfl, rfl, fun hsteady => hsteady _ path⟩

theorem orFail {ε : Type} {wrap : ε → ServeFault} (h : ∀ e name, isOverflow name (wrap e) = false)
    (e : Except ε α) : Harmless (orFail wrap e : Serving σ ρ α) := by
  constructor
  · intro p
    cases e <;> exact .refl p
  · intro p fault hfault
    cases e with
    | ok a => cases hfault
    | error e =>
      cases hfault
      exact h e

/-- Copying a file is harmless. -/
theorem dumpResource (name : String) : Harmless (dumpResource name : Serving σ ρ Unit) := by
  refine bind get fun p => ?_
  cases p.settings.dumpDirectory with
  | none => exact pure ()
  | some directory =>
    refine bind (tryRead name) fun raw => ?_
    cases raw with
    | error fault => exact report _ _
    | ok contents =>
      refine bind (trySave _ _) fun saved => ?_
      cases saved with
      | error fault => exact report _ _
      | ok _ => exact pure ()

/-- A resource that is no class has nothing to do with classes. -/
theorem plainResource (name : String) :
    Harmless (plainResource name : Serving σ ρ (Option Location)) := by
  refine bind (has name) fun found => ?_
  cases found with
  | false => exact pure none
  | true =>
    show Harmless (Provider.dumpResource name >>= _)
    refine bind (dumpResource name) fun _ => bind get fun p => ?_
    exact bind (orFail (fun _ _ => rfl) _) fun location => pure _

end Harmless

/-! ## Looking up a class -/

/-- The class that a lookup shows to the renamer: that in the file, if it is not ready yet. -/
def showing? (p : Provider σ ρ) (name : ClassName) : Option ClassTree :=
  if name ∈ p.classes then none else ModSource.class? p.files p.source name

variable [Renamer ρ]

/-- A class that is ready is served as it is. -/
theorem run_classBytes_of_ready {p : Provider σ ρ} {name : ClassName} {contents : Bytes}
    (h : p.classes[name]? = some contents) :
    (classBytes name).run p = (.ok (some contents), p) := by
  rw [classBytes, run_bind_ok (run_get p)]
  simp only [h]
  rfl

/-- A class that is made becomes ready. -/
theorem run_classBytes_of_made {p q : Provider σ ρ} {name : ClassName} {contents : Bytes}
    (h : p.classes[name]? = none) (hmade : (transform name).run p = (.ok (some contents), q)) :
    (classBytes name).run p =
      (.ok (some contents), { q with classes := q.classes.insert name contents }) := by
  rw [classBytes, run_bind_ok (run_get p)]
  simp only [h]
  rw [run_bind_ok hmade]
  rfl

/-- Otherwise nothing becomes ready. -/
theorem run_classBytes_of_failed {p q : Provider σ ρ} {name : ClassName}
    {r : Except ServeFault (Option Bytes)} (h : p.classes[name]? = none)
    (hmade : (transform name).run p = (r, q)) (hr : ∀ contents, r ≠ .ok (some contents)) :
    (classBytes name).run p = (r, q) := by
  rw [classBytes, run_bind_ok (run_get p)]
  simp only [h]
  match r, hr with
  | .error e, _ => rw [run_bind_error hmade]
  | .ok none, _ =>
    rw [run_bind_ok hmade]
    rfl
  | .ok (some contents), hr => exact absurd rfl (hr contents)

/-- How a lookup of a class can end, and what has become of the classes by then. -/
inductive Looks (name : ClassName) (p : Provider σ ρ) :
    Except ServeFault (Option Bytes) → Provider σ ρ → Prop
  | idle {r : Except ServeFault (Option Bytes)} {q : Provider σ ρ}
    (hshowing : p.showing? name = none) (haside : Aside p q)
    (hready : ∀ contents, r = .ok (some contents) → p.classes[name]? = some contents)
    (hfault : ∀ e, r = .error e → ∀ name', isOverflow name' e = false) : Looks name p r q
  | overflow {q : Provider σ ρ} {c : ClassTree} {fault : Overflow}
    (hshowing : p.showing? name = some c) (hencode : encode (p.served c) = .error fault)
    (haside : Aside (p.shown c) q) : Looks name p (.error (.overflow name fault)) q
  | ready {q : Provider σ ρ} {c : ClassTree} {contents : Bytes}
    (hshowing : p.showing? name = some c) (hencode : encode (p.served c) = .ok contents)
    (haside : Aside { p.shown c with classes := p.classes.insert name contents } q) :
    Looks name p (.ok (some contents)) q

/-- A lookup of a class ends in one of these ways. -/
theorem looks (name : ClassName) (p : Provider σ ρ) :
    Looks name p ((classBytes name).run p).1 ((classBytes name).run p).2 := by
  cases hclass : p.classes[name]? with
  | some contents =>
    have hmem : name ∈ p.classes := by
      rw [Std.HashMap.mem_iff_isSome_getElem?, hclass]
      rfl
    rw [run_classBytes_of_ready hclass]
    refine .idle (if_pos hmem) (.refl p) (fun _ h => ?_) (fun e h => by cases h)
    cases h
    exact hclass
  | none =>
    have hmem : name ∉ p.classes := by
      rw [Std.HashMap.mem_iff_isSome_getElem?, hclass]
      simp
    have hshowing : ∀ {c : ClassTree}, p.showing? name = some c ↔
        ModSource.has p.files p.source name.filePath = true ∧
          ∃ raw, (ModSource.read p.files p.source name.filePath).1 = .ok raw ∧
          decode raw = .ok c := by
      intro c
      rw [showing?, if_neg hmem]
      exact ModSource.class?_eq_some_iff
    have hsame : ∀ {raw : Except SourceFault Bytes} {source : σ},
        ModSource.read p.files p.source name.filePath = (raw, source) →
          ModSource.Steady p.source → source = p.source := by
      intro raw source hread hsteady
      rw [← hsteady p.files name.filePath, hread]
    have htransforms := transforms name p
    generalize hrun : (transform name).run p = outcome at htransforms
    obtain ⟨r, q⟩ := outcome
    -- An ending without a class shows nothing. The other two show the class that is decoded.
    cases htransforms with
    | absent log hhas =>
      rw [run_classBytes_of_failed hclass hrun (by simp)]
      exact .idle (by simp [Option.eq_none_iff_forall_ne_some, hshowing, hhas])
        ⟨rfl, rfl, rfl, rfl, fun _ => rfl⟩ (by simp) (by simp)
    | unreadable log hhas hread =>
      rw [run_classBytes_of_failed hclass hrun (by simp)]
      exact .idle (by simp [Option.eq_none_iff_forall_ne_some, hshowing, hread])
        ⟨rfl, rfl, rfl, rfl, hsame hread⟩ (by simp) (by simp [isOverflow])
    | malformed log hhas hread hdecode =>
      rw [run_classBytes_of_failed hclass hrun (by simp)]
      exact .idle (by simp [Option.eq_none_iff_forall_ne_some, hshowing, hread, hdecode])
        ⟨rfl, rfl, rfl, rfl, hsame hread⟩ (by simp) (by simp [isOverflow])
    | @overflow log raw source c fault hhas hread hdecode hencode =>
      rw [run_classBytes_of_failed hclass hrun (by simp)]
      exact .overflow (hshowing.2 ⟨hhas, raw, by rw [hread], hdecode⟩) hencode
        ⟨rfl, rfl, rfl, rfl, hsame hread⟩
    | @ready log files raw contents source c hhas hread hdecode hencode =>
      rw [run_classBytes_of_made hclass hrun]
      exact .ready (hshowing.2 ⟨hhas, raw, by rw [hread], hdecode⟩) hencode
        ⟨rfl, rfl, rfl, rfl, hsame hread⟩

/-- A class that is shown is answered with its bytes, as it is served, if there is room for it. -/
theorem answer_of_showing? {p : Provider σ ρ} {name : ClassName} {c : ClassTree}
    (h : p.showing? name = some c) : ((classBytes name).run p).1 =
      ((encode (p.served c)).map some).mapError (ServeFault.overflow name) := by
  have hlooks := looks name p
  generalize (classBytes name).run p = outcome at hlooks
  obtain ⟨r, q⟩ := outcome
  cases hlooks with
  | idle hnone => cases hnone.symm.trans h
  | overflow hsome hencode =>
    cases hsome.symm.trans h
    rw [hencode]
    rfl
  | ready hsome hencode =>
    cases hsome.symm.trans h
    rw [hencode]
    rfl

/-- A class that is shown and finds room is ready from then on. -/
theorem run_classBytes_of_showing? {p : Provider σ ρ} {name : ClassName} {c : ClassTree}
    {contents : Bytes} (hshowing : p.showing? name = some c)
    (hencode : encode (p.served c) = .ok contents) :
    ∃ q, (classBytes name).run p = (.ok (some contents), q) ∧
      Aside { p.shown c with classes := p.classes.insert name contents } q := by
  have hlooks := looks name p
  generalize (classBytes name).run p = outcome at hlooks
  obtain ⟨r, q⟩ := outcome
  cases hlooks with
  | idle hnone => cases hnone.symm.trans hshowing
  | overflow hsome hfault =>
    cases hsome.symm.trans hshowing
    cases hfault.symm.trans hencode
  | ready hsome hmade haside =>
    cases hsome.symm.trans hshowing
    cases hmade.symm.trans hencode
    exact ⟨q, rfl, haside⟩

/-! ## Files of classes -/

/-- Puts a class that is ready into a file. -/
def place (name : ClassName) : Option Bytes → Serving σ ρ (Option Location)
  | none => pure none
  | some contents => do
    let path := Path.below (← get).settings.tempDirectory name.filePath
    orFail (fun fault => .source (.file fault)) (← trySave path contents)
    report .debug s!"Materialized {name.text} at {path}"
    let directory := FileSystem.absolutePath (← get).files.workingDirectory
    pure (some (.ofPath directory path))

/-- Remembers the file of a class, if there is one. -/
def remember (name : ClassName) : Option Location → Serving σ ρ (Option Location)
  | none => pure none
  | some location => do
    modify fun p => { p with materialized := p.materialized.insert name location }
    pure (some location)

/-- The file of a class is put in place once there are bytes. -/
theorem classResource_eq (name : ClassName) : classResource name = (do
    match (← get).materialized[name]? with
    | some location => pure (some location)
    | none =>
      let contents ← classBytes name
      let made ← place name contents
      remember name made : Serving σ ρ (Option Location)) := by
  rw [classResource]
  refine bind_congr fun p => ?_
  cases p.materialized[name]? with
  | some location => rfl
  | none =>
    simp only [materialize, bind_assoc]
    refine bind_congr fun contents => ?_
    cases contents <;> rfl

omit [Renamer ρ] in

/-- Putting it in place is harmless. -/
theorem harmless_place (name : ClassName) (contents : Option Bytes) :
    Harmless (place name contents : Serving σ ρ (Option Location)) := by
  cases contents with
  | none => exact .pure none
  | some contents =>
    refine .bind .get fun p => .bind (.trySave _ _) fun saved => ?_
    refine .bind (.orFail (fun _ _ => rfl) saved) fun _ => .bind (.report _ _) fun _ => ?_
    exact .bind .get fun p => .pure _

omit [Renamer ρ] in
theorem harmless_remember (name : ClassName) (made : Option Location) :
    Harmless (remember name made : Serving σ ρ (Option Location)) := by
  cases made with
  | none => exact .pure none
  | some location =>
    refine .bind (.of_ok fun p => ?_) fun _ => .pure _
    exact ⟨(), _, rfl, rfl, rfl, rfl, rfl, fun _ => rfl⟩

end Provider

/-! ## Requests -/

/-- What a provider can be asked for. -/
inductive Request
  | classBytes (name : ClassName)
  | classTree (name : ClassName)
  | resource (path : String)

namespace Request

open Provider

variable {σ ρ : Type} [ModSource σ]

/-- The class that a request shows to the renamer, with the name it is asked for by. -/
def showing? (request : Request) (p : Provider σ ρ) : Option (ClassName × ClassTree) :=
  match request with
  | classBytes name | classTree name => (p.showing? name).map (name, ·)
  | resource path =>
    match ClassName.ofFilePath? path with
    | some name => if name ∈ p.materialized then none else (p.showing? name).map (name, ·)
    | none => none

variable [Renamer ρ]

/-- Answers a request. -/
def perform : Request → Serving σ ρ Unit
  | classBytes name => do let _ ← Provider.classBytes name
  | classTree name => do let _ ← Provider.classTree name
  | resource path => do let _ ← Provider.resource path

/-- How a request can end, and what has become of the classes by then: nothing has been done about
them, or one class has been shown to the renamer and either finds no room or is ready now. -/
inductive Answers (request : Request) (p : Provider σ ρ) :
    Except ServeFault Unit → Provider σ ρ → Prop
  | idle {r : Except ServeFault Unit} {q : Provider σ ρ} (hshowing : request.showing? p = none)
    (haside : Aside p q) (hfault : ∀ e, r = .error e → ∀ name, isOverflow name e = false) :
    Answers request p r q
  | overflow {q : Provider σ ρ} {name : ClassName} {c : ClassTree} {fault : Overflow}
    (hshowing : request.showing? p = some (name, c))
    (hencode : encode (p.served c) = .error fault) (haside : Aside (p.shown c) q) :
    Answers request p (.error (.overflow name fault)) q
  | ready {r : Except ServeFault Unit} {q : Provider σ ρ} {name : ClassName} {c : ClassTree}
    {contents : Bytes} (hshowing : request.showing? p = some (name, c))
    (hencode : encode (p.served c) = .ok contents)
    (haside : Aside { p.shown c with classes := p.classes.insert name contents } q)
    (hfault : ∀ e, r = .error e → ∀ name, isOverflow name e = false) : Answers request p r q

/-- A request that shows no class answers without changing classes. -/
theorem answers_of_harmless {request : Request} {x : Serving σ ρ Unit} {p : Provider σ ρ}
    (hshowing : request.showing? p = none) (hx : Harmless x) :
    Answers request p (x.run p).1 (x.run p).2 :=
  .idle hshowing (hx.aside p) (hx.fault p)

/-- What is done with the bytes of a class afterwards changes nothing about classes. -/
theorem answers_of_classBytes {request : Request} {name : ClassName} {p : Provider σ ρ}
    {f : Option Bytes → Serving σ ρ Unit}
    (hshowing : request.showing? p = (p.showing? name).map (name, ·))
    (hf : ∀ contents, Harmless (f contents)) :
    Answers request p ((Provider.classBytes name >>= f).run p).1
      ((Provider.classBytes name >>= f).run p).2 := by
  have hlooks := looks name p
  generalize hrun : (Provider.classBytes name).run p = outcome at hlooks
  obtain ⟨r, q⟩ := outcome
  cases hlooks with
  | idle hnone haside _ hfault =>
    rw [hnone] at hshowing
    cases r with
    | error e =>
      rw [run_bind_error hrun]
      refine .idle hshowing haside fun e' he' => ?_
      cases he'
      exact hfault e rfl
    | ok contents =>
      rw [run_bind_ok hrun]
      exact .idle hshowing (haside.trans ((hf contents).aside q)) ((hf contents).fault q)
  | overflow hsome hencode haside =>
    rw [hsome] at hshowing
    rw [run_bind_error hrun]
    exact .overflow hshowing hencode haside
  | ready hsome hencode haside =>
    rw [hsome] at hshowing
    rw [run_bind_ok hrun]
    exact .ready hshowing hencode (haside.trans ((hf _).aside q)) ((hf _).fault q)

/-- A request ends in one of the ways listed. -/
theorem answers (request : Request) (p : Provider σ ρ) :
    Answers request p (request.perform.run p).1 (request.perform.run p).2 := by
  cases request with
  | classBytes name => exact answers_of_classBytes rfl fun _ => .pure ()
  | classTree name =>
    rw [perform, Provider.classTree, bind_assoc]
    refine answers_of_classBytes rfl fun contents => .bind ?_ fun _ => .pure ()
    cases contents with
    | none => exact .pure none
    | some contents => exact .bind (.orFail (fun _ _ => rfl) _) fun _ => .pure _
  | resource path =>
    rw [perform, Provider.resource]
    cases hpath : ClassName.ofFilePath? path with
    | none =>
      refine answers_of_harmless ?_ (.bind (.plainResource path) fun _ => .pure ())
      rw [showing?, hpath]
    | some name =>
      simp only [classResource_eq, bind_assoc]
      rw [run_bind_ok (run_get p)]
      -- A class whose file is known is not looked at again.
      cases hmaterialized : p.materialized[name]? with
      | some location =>
        refine answers_of_harmless ?_ (.bind (.pure _) fun _ => .pure ())
        have hmem : name ∈ p.materialized := by
          rw [Std.HashMap.mem_iff_isSome_getElem?, hmaterialized]
          rfl
        simp [showing?, hpath, hmem]
      | none =>
        have hmem : name ∉ p.materialized := by
          rw [Std.HashMap.mem_iff_isSome_getElem?, hmaterialized]
          simp
        have hshowing : (resource path).showing? p = (p.showing? name).map (name, ·) := by
          simp [showing?, hpath, hmem]
        simp only [bind_assoc]
        refine answers_of_classBytes hshowing fun contents => ?_
        refine .bind (harmless_place name contents) fun made => ?_
        exact .bind (harmless_remember name made) fun _ => .pure ()

end Request

end Crosswalk
