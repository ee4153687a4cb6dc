import Crosswalk.Provider.Basic

/-!
# What a step of a provider does

`Provider.Transforms` lists the ways in which making a class ready can end, and what has become of
the provider by then. It is the only place where the step itself is opened: everything else that is
said about lookups goes through `Provider.transforms` and the two equations about the classes that
are ready.
-/

namespace Crosswalk.Provider

variable {σ ρ α β : Type}

/-! ## Running -/

/-- A step behind one that has an answer goes on with what that one has left. -/
theorem run_bind_ok {x : Serving σ ρ α} {f : α → Serving σ ρ β} {p p' : Provider σ ρ} {a : α}
    (h : x.run p = (.ok a, p')) : (x >>= f).run p = (f a).run p' := by
  rw [ExceptT.run_bind]
  simp only [bind, StateT.bind, h]

/-- A step behind one that fails is not taken. -/
theorem run_bind_error {x : Serving σ ρ α} {f : α → Serving σ ρ β} {p p' : Provider σ ρ}
    {e : ServeFault} (h : x.run p = (.error e, p')) : (x >>= f).run p = (.error e, p') := by
  rw [ExceptT.run_bind]
  simp only [bind, StateT.bind, h]
  rfl

/-- A value changes nothing. -/
theorem run_pure (a : α) (p : Provider σ ρ) :
    (pure a : Serving σ ρ α).run p = (.ok a, p) := rfl

theorem run_get (p : Provider σ ρ) : (get : Serving σ ρ _).run p = (.ok p, p) := rfl

/-- What is there goes on. -/
theorem run_orFail_ok {ε : Type} (wrap : ε → ServeFault) (a : α) (p : Provider σ ρ) :
    (orFail wrap (.ok a) : Serving σ ρ α).run p = (.ok a, p) := rfl

/-- What has failed is wrapped. -/
theorem run_orFail_error {ε : Type} (wrap : ε → ServeFault) (e : ε) (p : Provider σ ρ) :
    (orFail wrap (.error e) : Serving σ ρ α).run p = (.error (wrap e), p) := rfl

/-- A report goes to the log. -/
theorem run_report (level : Level) (message : String) (p : Provider σ ρ) :
    (report level message).run p = (.ok (), { p with log := p.log.push ⟨level, message⟩ }) := rfl

/-- Whether the mod has a file is asked in the files as they are. -/
theorem run_has [ModSource σ] (path : String) (p : Provider σ ρ) :
    (has path).run p = (.ok (ModSource.has p.files p.source path), p) := rfl

/-- Reading may change the source. -/
theorem run_tryRead [ModSource σ] (path : String) (p : Provider σ ρ) :
    (tryRead path).run p =
      (.ok (ModSource.read p.files p.source path).1,
        { p with source := (ModSource.read p.files p.source path).2 }) := rfl

/-- Saving changes the files. -/
theorem run_trySave (path : String) (contents : Bytes) (p : Provider σ ρ) :
    (trySave path contents).run p =
      (.ok (p.files.save path contents).2, { p with files := (p.files.save path contents).1 }) :=
      rfl

/-- A class is learned before it gets its new names. -/
theorem run_rename [Renamer ρ] (c : ClassTree) (p : Provider σ ρ) :
    (rename c).run p = (.ok (c.rename (Renamer.current (Renamer.learn p.renamer c))),
      { p with renamer := Renamer.learn p.renamer c }) := rfl

/-! ## Parts of a step -/

/-- The candidates once a class has been considered. -/
def considered (p : Provider σ ρ) (c : ClassTree) : Candidates :=
  if c.isScreen p.settings then p.candidates.add c.name else p.candidates

/-- Looking for a screen may add a candidate. -/
theorem run_considerScreen (c : ClassTree) (p : Provider σ ρ) : ∃ log,
    (considerScreen c).run p = (.ok (), { p with log, candidates := p.considered c }) := by
  by_cases h : c.isScreen p.settings = true
  · refine ⟨p.log.push ⟨.debug, s!"{c.name} looks like a config screen"⟩, ?_⟩
    rw [considerScreen, run_bind_ok (run_get p), if_pos h, run_bind_ok (run_report ..), considered,
      if_pos h]
    rfl
  · refine ⟨p.log, ?_⟩
    rw [considerScreen, run_bind_ok (run_get p), if_neg h, considered, if_neg h]
    rfl

/-- Patches only change the class and the log. -/
theorem run_patch (c : ClassTree) (p : Provider σ ρ) : ∃ log,
    (patch c).run p = (.ok (c.widen p.settings), { p with log }) := by
  rw [patch, run_bind_ok (run_get p)]
  by_cases h : 0 < c.widenedCount p.settings
  · simp only [if_pos h]
    exact ⟨_, run_bind_ok (run_report ..)⟩
  · simp only [if_neg h]
    exact ⟨p.log, rfl⟩

/-- A dump only changes the log and the files. -/
theorem run_dumpClass (name : ClassName) (contents : Bytes) (p : Provider σ ρ) : ∃ log files,
    (dumpClass name contents).run p = (.ok (), { p with log, files }) := by
  rw [dumpClass, run_bind_ok (run_get p)]
  cases p.settings.dumpDirectory with
  | none => exact ⟨p.log, p.files, rfl⟩
  | some directory =>
    simp only
    rw [run_bind_ok (run_trySave ..)]
    cases (p.files.save (Path.below (Path.join directory "class") name.filePath) contents).2 with
    | ok _ => exact ⟨p.log, _, rfl⟩
    | error fault => exact ⟨_, _, run_report ..⟩

/-! ## Making a class ready -/

/-- Makes a class ready from what came of reading its file. -/
def digest [Renamer ρ] (name : ClassName) (raw : Except SourceFault Bytes) :
    Serving σ ρ (Option Bytes) := do
  let raw ← orFail .source raw
  let c ← orFail (.malformed name) (decode raw)
  let renamed ← rename c
  considerScreen renamed
  let patched ← patch renamed
  let contents ← orFail (.overflow name) (encode patched)
  dumpClass name contents
  pure (some contents)

section Transform

variable [ModSource σ] [Renamer ρ] {name : ClassName} {p : Provider σ ρ}

/-- Of a class that the mod does not have nothing is made. -/
theorem run_transform_of_absent (hhas : ModSource.has p.files p.source name.filePath = false) :
    (transform name).run p =
      (.ok none, { p with log := p.log.push ⟨.debug, s!"No class {name.text} in mod"⟩ }) := by
  rw [transform, run_bind_ok (run_has ..), hhas]
  rfl

/-- A class that the mod has is made ready from its file. -/
theorem run_transform_of_has (hhas : ModSource.has p.files p.source name.filePath = true) :
    (transform name).run p = (digest name (ModSource.read p.files p.source name.filePath).1).run
      { p with
        source := (ModSource.read p.files p.source name.filePath).2
        log := p.log.push ⟨.debug, s!"Transforming {name.text}"⟩ } := by
  rw [transform, run_bind_ok (run_has ..), hhas]
  show (report _ _ >>= _ : Serving σ ρ (Option Bytes)).run p = _
  rw [run_bind_ok (run_report ..), run_bind_ok (run_tryRead ..)]
  rfl

end Transform

/-- A provider that has shown a class to its renamer, and considered it with its new names. -/
def shown [Renamer ρ] (p : Provider σ ρ) (c : ClassTree) : Provider σ ρ :=
  let renamer := Renamer.learn p.renamer c
  { p with renamer, candidates := p.considered (c.rename (Renamer.current renamer)) }

/-- A class as it is served: with its new names and its patches. -/
def served [Renamer ρ] (p : Provider σ ρ) (c : ClassTree) : ClassTree :=
  (c.rename (Renamer.current (Renamer.learn p.renamer c))).widen p.settings

/-- How making a class ready can end, and what has become of the provider by then. -/
inductive Transforms [ModSource σ] [Renamer ρ] (name : ClassName) (p : Provider σ ρ) :
    Except ServeFault (Option Bytes) → Provider σ ρ → Prop
  | absent (log : Array Record) (hhas : ModSource.has p.files p.source name.filePath = false) :
    Transforms name p (.ok none) { p with log }
  | unreadable (log : Array Record) {fault : SourceFault} {source : σ}
    (hhas : ModSource.has p.files p.source name.filePath = true)
    (hread : ModSource.read p.files p.source name.filePath = (.error fault, source)) :
    Transforms name p (.error (.source fault)) { p with source, log }
  | malformed (log : Array Record) {raw : Bytes} {source : σ} {fault : Malformed}
    (hhas : ModSource.has p.files p.source name.filePath = true)
    (hread : ModSource.read p.files p.source name.filePath = (.ok raw, source))
    (hdecode : decode raw = .error fault) :
    Transforms name p (.error (.malformed name fault)) { p with source, log }
  | overflow (log : Array Record) {raw : Bytes} {source : σ} {c : ClassTree} {fault : Overflow}
    (hhas : ModSource.has p.files p.source name.filePath = true)
    (hread : ModSource.read p.files p.source name.filePath = (.ok raw, source))
    (hdecode : decode raw = .ok c) (hencode : encode (p.served c) = .error fault) :
    Transforms name p (.error (.overflow name fault)) { p.shown c with source, log }
  | ready (log : Array Record) (files : FileSystem) {raw contents : Bytes} {source : σ}
    {c : ClassTree} (hhas : ModSource.has p.files p.source name.filePath = true)
    (hread : ModSource.read p.files p.source name.filePath = (.ok raw, source))
    (hdecode : decode raw = .ok c) (hencode : encode (p.served c) = .ok contents) :
    Transforms name p (.ok (some contents)) { p.shown c with source, log, files }

/-- Making a class ready ends in one of the ways listed. -/
theorem transforms [ModSource σ] [Renamer ρ] (name : ClassName) (p : Provider σ ρ) :
    Transforms name p ((transform name).run p).1 ((transform name).run p).2 := by
  have hrun : ∀ {r q}, (transform name).run p = (r, q) → Transforms name p r q →
      Transforms name p ((transform name).run p).1 ((transform name).run p).2 := by
    intro r q h
    rw [h]
    exact id
  -- The run is followed up to the first step that fails, whatever is in the log by then.
  cases hhas : ModSource.has p.files p.source name.filePath with
  | false => exact hrun (run_transform_of_absent hhas) (.absent _ hhas)
  | true =>
    have hstart := run_transform_of_has hhas
    generalize p.log.push _ = log at hstart
    rcases hread : ModSource.read p.files p.source name.filePath with ⟨raw, source⟩
    rw [hread, digest] at hstart
    cases raw with
    | error fault =>
      refine hrun (hstart.trans ?_) (.unreadable log hhas hread)
      rw [run_bind_error (run_orFail_error ..)]
    | ok raw =>
      rw [run_bind_ok (run_orFail_ok ..)] at hstart
      cases hdecode : decode raw with
      | error fault =>
        refine hrun (hstart.trans ?_) (.malformed log hhas hread hdecode)
        rw [hdecode, run_bind_error (run_orFail_error ..)]
      | ok c =>
        rw [hdecode, run_bind_ok (run_orFail_ok ..), run_bind_ok (run_rename ..)] at hstart
        obtain ⟨log₁, hconsider⟩ := run_considerScreen
          (c.rename (Renamer.current (Renamer.learn p.renamer c)))
          { p with source, log, renamer := Renamer.learn p.renamer c }
        obtain ⟨log₂, hpatch⟩ := run_patch
          (c.rename (Renamer.current (Renamer.learn p.renamer c)))
          { p.shown c with source, log := log₁ }
        rw [run_bind_ok hconsider] at hstart
        have hstart := hstart.trans (run_bind_ok hpatch)
        cases hencode : encode (p.served c) with
        | error fault =>
          refine hrun (hstart.trans ?_) (.overflow log₂ hhas hread hdecode hencode)
          exact run_bind_error (congrArg (fun e => ExceptT.run (orFail _ e) _) hencode)
        | ok contents =>
          obtain ⟨log₃, files, hdump⟩ := run_dumpClass name contents
            { p.shown c with source, log := log₂ }
          refine hrun (hstart.trans ?_) (.ready log₃ files hhas hread hdecode hencode)
          refine (run_bind_ok (congrArg (fun e => ExceptT.run (orFail _ e) _) hencode)).trans ?_
          exact run_bind_ok hdump

end Crosswalk.Provider
