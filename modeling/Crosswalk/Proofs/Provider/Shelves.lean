import Crosswalk.Proofs.Provider.Requests

/-!
# Where a provider keeps things

A provider keeps the classes that are ready, and the files of those that have been served as
resources. It looks both up in the same way (`Shelf.lookup`): what is kept is the answer, and
anything else is made, and kept if there is something to keep. `Shelf.Looks` lists how such a lookup
can end. One without an answer has kept nothing, so that the same lookup makes everything again
(`Shelf.lookup_again`).
-/

namespace Crosswalk

namespace Provider

variable {σ ρ α : Type}

/-! ## Shelves -/

/-- A map in which a provider keeps something by class. -/
structure Shelf (σ ρ α : Type) where
  items : Provider σ ρ → Std.HashMap ClassName α
  put : Std.HashMap ClassName α → Provider σ ρ → Provider σ ρ
  items_put : ∀ m p, items (put m p) = m

namespace Shelf

/-- The classes that are ready. -/
def ready : Shelf σ ρ Bytes :=
  ⟨Provider.classes, fun classes p => { p with classes }, fun _ _ => rfl⟩

/-- The files of classes. -/
def placed : Shelf σ ρ Location :=
  ⟨Provider.materialized, fun materialized p => { p with materialized }, fun _ _ => rfl⟩

@[simp] theorem items_ready (p : Provider σ ρ) : ready.items p = p.classes := rfl

@[simp] theorem items_placed (p : Provider σ ρ) : placed.items p = p.materialized := rfl

/-- Keeps what has been made, if anything has. -/
def keep (s : Shelf σ ρ α) (name : ClassName) : Option α → Serving σ ρ (Option α)
  | none => pure none
  | some a => do
    modify fun p => s.put ((s.items p).insert name a) p
    pure (some a)

/-- What is kept for a class, or what is made for it now. -/
def lookup (s : Shelf σ ρ α) (name : ClassName) (make : Serving σ ρ (Option α)) :
    Serving σ ρ (Option α) := do
  match (s.items (← get))[name]? with
  | some a => pure (some a)
  | none => make >>= s.keep name

variable {s : Shelf σ ρ α} {name : ClassName} {make : Serving σ ρ (Option α)} {p : Provider σ ρ}

/-- How a lookup can end: with what is kept, with what is made and kept from now on, or without an
answer. -/
inductive Looks (s : Shelf σ ρ α) (name : ClassName) (make : Serving σ ρ (Option α))
    (p : Provider σ ρ) : Except ServeFault (Option α) → Provider σ ρ → Prop
  | kept {a : α} (hitem : (s.items p)[name]? = some a) : Looks s name make p (.ok (some a)) p
  | made {a : α} {q : Provider σ ρ} (hitem : (s.items p)[name]? = none)
    (hmake : make.run p = (.ok (some a), q)) :
    Looks s name make p (.ok (some a)) (s.put ((s.items q).insert name a) q)
  | missed {r : Except ServeFault (Option α)} {q : Provider σ ρ}
    (hitem : (s.items p)[name]? = none) (hmake : make.run p = (r, q))
    (hr : ∀ a, r ≠ .ok (some a)) : Looks s name make p r q

/-- What is kept is the answer. -/
theorem run_lookup_of_kept {a : α} (h : (s.items p)[name]? = some a) :
    (s.lookup name make).run p = (.ok (some a), p) := by
  rw [lookup, run_bind_ok (run_get p)]
  simp only [h]
  rfl

/-- What is missing is made and kept. -/
theorem run_lookup_of_missing (h : (s.items p)[name]? = none) :
    (s.lookup name make).run p = (make >>= s.keep name).run p := by
  rw [lookup, run_bind_ok (run_get p)]
  simp only [h]

/-- A lookup ends in one of these ways. -/
theorem looks_lookup (s : Shelf σ ρ α) (name : ClassName) (make : Serving σ ρ (Option α))
    (p : Provider σ ρ) :
    Looks s name make p ((s.lookup name make).run p).1 ((s.lookup name make).run p).2 := by
  cases hitem : (s.items p)[name]? with
  | some a =>
    rw [run_lookup_of_kept hitem]
    exact .kept hitem
  | none =>
    rw [run_lookup_of_missing hitem]
    rcases hrun : make.run p with ⟨e | _ | a, q⟩
    · rw [run_bind_error hrun]
      exact .missed hitem hrun fun a h => by cases h
    · rw [run_bind_ok hrun]
      exact .missed hitem hrun fun a h => by cases h
    · rw [run_bind_ok hrun]
      exact .made hitem hrun

/-- What has been answered is kept. -/
theorem kept_of_lookup {a : α} (h : ((s.lookup name make).run p).1 = .ok (some a)) :
    (s.items ((s.lookup name make).run p).2)[name]? = some a := by
  have hlooks := looks_lookup s name make p
  generalize (s.lookup name make).run p = outcome at h hlooks
  obtain ⟨r, q⟩ := outcome
  cases hlooks with
  | kept hitem =>
    cases h
    exact hitem
  | made =>
    cases h
    rw [s.items_put]
    exact Std.HashMap.getElem?_insert_self
  | missed hitem hmake hr => exact absurd h (hr a)

/-- There is no answer: the step fails, or what it looks for is absent. -/
def Misses (x : Serving σ ρ (Option α)) (p : Provider σ ρ) : Prop :=
  ∀ a, (x.run p).1 ≠ .ok (some a)

/-- A lookup without an answer has kept nothing, and the same lookup makes all of it again. -/
theorem lookup_again (hmake : s.items (make.run p).2 = s.items p)
    (h : Misses (s.lookup name make) p) :
    s.items ((s.lookup name make).run p).2 = s.items p ∧
      (s.lookup name make).run ((s.lookup name make).run p).2 =
        (make >>= s.keep name).run ((s.lookup name make).run p).2 := by
  have hlooks := looks_lookup s name make p
  rw [Misses] at h
  generalize (s.lookup name make).run p = outcome at h hlooks
  obtain ⟨r, q⟩ := outcome
  cases hlooks with
  -- What is kept and what is made are answers.
  | kept => exact absurd rfl (h _)
  | made => exact absurd rfl (h _)
  | missed hitem hrun =>
    rw [hrun] at hmake
    refine ⟨hmake, run_lookup_of_missing ?_⟩
    exact (congrArg (·[name]?) hmake).trans hitem

end Shelf

/-! ## Lookups -/

variable [ModSource σ] [Renamer ρ] {p q : Provider σ ρ} {name : ClassName} {contents : Bytes}

/-- Classes that are ready are a shelf. -/
theorem classBytes_eq (name : ClassName) :
    (classBytes name : Serving σ ρ (Option Bytes)) = Shelf.ready.lookup name (transform name) := by
  rw [classBytes, Shelf.lookup]
  refine bind_congr fun p => ?_
  rw [Shelf.items_ready]
  cases p.classes[name]? with
  | some contents => rfl
  | none =>
    refine bind_congr fun made => ?_
    cases made <;> rfl

/-- What is answered for a class that has these bytes. -/
def reading (name : ClassName) : Option Bytes → Except ServeFault (Option ClassTree)
  | none => .ok none
  | some contents =>
    match decode contents with
    | .ok c => .ok (some c)
    | .error fault => .error (.malformed name fault)

/-- The tree of a class is read from its bytes. -/
theorem run_classTree_of_ok {contents : Option Bytes}
    (h : (classBytes name).run p = (.ok contents, q)) :
    (classTree name).run p = (reading name contents, q) := by
  rw [classTree, run_bind_ok h]
  cases contents with
  | none => rfl
  | some contents =>
    simp only [reading]
    cases decode contents <;> rfl

/-- Without them there is none. -/
theorem run_classTree_of_error {e : ServeFault} (h : (classBytes name).run p = (.error e, q)) :
    (classTree name).run p = (.error e, q) :=
  run_bind_error h

/-- Classes that are in place are another shelf, whose items are made by the first one. -/
theorem classResource_eq_lookup (name : ClassName) :
    (classResource name : Serving σ ρ (Option Location)) =
      Shelf.placed.lookup name (classBytes name >>= place name) := by
  rw [classResource_eq, Shelf.lookup]
  refine bind_congr fun p => ?_
  rw [Shelf.items_placed]
  cases p.materialized[name]? with
  | some location => rfl
  | none =>
    simp only [bind_assoc]
    refine bind_congr fun contents => bind_congr fun made => ?_
    cases made <;> rfl

/-- The pipeline itself keeps nothing. -/
theorem transform_keeps (name : ClassName) (p : Provider σ ρ) :
    ((transform name).run p).2.classes = p.classes ∧
      ((transform name).run p).2.materialized = p.materialized := by
  have htransforms := transforms name p
  generalize (transform name).run p = outcome at htransforms
  obtain ⟨r, q⟩ := outcome
  cases htransforms <;> exact ⟨rfl, rfl⟩

omit [ModSource σ] [Renamer ρ] in
/-- Putting a class into a file is about files only. -/
theorem run_place (name : ClassName) (contents : Option Bytes) (p : Provider σ ρ) :
    ∃ r files log, (place name contents).run p = (r, { p with files, log }) ∧
      (contents = none → r = .ok none) := by
  cases contents with
  | none => exact ⟨_, p.files, p.log, rfl, fun _ => rfl⟩
  | some contents =>
    generalize hpath : Path.below p.settings.tempDirectory name.filePath = path
    rw [place, run_bind_ok (run_get p)]
    simp only [hpath]
    rw [run_bind_ok (run_trySave ..)]
    cases (p.files.save path contents).2 with
    | error fault =>
      refine ⟨_, (p.files.save path contents).1, p.log, run_bind_error (run_orFail_error ..), ?_⟩
      simp
    | ok _ =>
      rw [run_bind_ok (run_orFail_ok ..), run_bind_ok (run_report ..)]
      exact ⟨_, _, _, rfl, by simp⟩

omit [Renamer ρ] in
/-- Mirroring a resource does not fail. It may read the resource, and that only once. -/
theorem run_dumpResource (path : String) (p : Provider σ ρ) : ∃ source files log,
    (dumpResource path).run p = (.ok (), { p with source, files, log }) ∧
      (source = p.source ∨ source = (ModSource.read p.files p.source path).2) := by
  rw [dumpResource, run_bind_ok (run_get p)]
  cases p.settings.dumpDirectory with
  | none => exact ⟨p.source, p.files, p.log, rfl, .inl rfl⟩
  | some directory =>
    simp only
    rw [run_bind_ok (run_tryRead ..)]
    cases (ModSource.read p.files p.source path).1 with
    | error fault => exact ⟨_, p.files, _, rfl, .inr rfl⟩
    | ok contents =>
      simp only
      rw [run_bind_ok (run_trySave ..)]
      generalize FileSystem.save _ _ contents = saved
      obtain ⟨files, saved⟩ := saved
      cases saved <;> exact ⟨_, _, _, rfl, .inr rfl⟩

omit [Renamer ρ] in
/-- A resource that is no class is about files and the source only. -/
theorem run_plainResource (path : String) (p : Provider σ ρ) :
    ∃ r source files log, (plainResource path).run p = (r, { p with source, files, log }) := by
  obtain ⟨source, files, log, hdump, -⟩ := run_dumpResource path p
  rw [plainResource, run_bind_ok (run_has ..)]
  cases ModSource.has p.files p.source path with
  | false => exact ⟨_, p.source, p.files, p.log, rfl⟩
  | true =>
    show ∃ r source files log, (dumpResource path >>= _ : Serving σ ρ _).run p = _
    rw [run_bind_ok hdump, run_bind_ok (run_get _)]
    generalize ModSource.locate files source path = location
    cases location <;> exact ⟨_, source, files, log, rfl⟩

omit [ModSource σ] [Renamer ρ] in
/-- What a step leaves alone looks afterwards as it did before that step. -/
theorem view_run_bind {β γ : Type} (view : Provider σ ρ → γ) (x : Serving σ ρ α)
    {f : α → Serving σ ρ β} (hf : ∀ a q, view ((f a).run q).2 = view q) (p : Provider σ ρ) :
    view ((x >>= f).run p).2 = view (x.run p).2 := by
  cases hrun : x.run p with
  | mk r q =>
  cases r with
  | error e => rw [run_bind_error hrun]
  | ok a =>
    rw [run_bind_ok hrun]
    exact hf a q

end Provider

end Crosswalk
