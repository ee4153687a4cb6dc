import Crosswalk.Proofs.Files.Saving
import Crosswalk.Proofs.Provider.Failures
import Crosswalk.Proofs.Provider.Shelves

/-!
# What a provider saves

All that a provider does to files is to save some. `Provider.Saves` says what a step saves, and has
a rule for steps that are taken one after the other; a step that saves nothing is `Quiet`. A class
is mirrored when it is made (`Provider.saves_classBytes`), and put into a file of its own when it is
served as a resource (`Provider.saves_classResource`). What a request saves is `Request.saves`.
-/

namespace Crosswalk

open FileSystem (Saving)

namespace Provider

variable {σ ρ α β : Type} {p q : Provider σ ρ}

/-! ## Steps and what they save -/

/-- The step saves these contents and does nothing else to the files, whether or not the saves and
the step fail. -/
structure Saves (x : Serving σ ρ α) (p : Provider σ ρ) (saves : List Saving) : Prop where
  settings : (x.run p).2.settings = p.settings
  files : (x.run p).2.files = p.files.saveAll saves

/-- The step saves nothing. -/
def Quiet (x : Serving σ ρ α) : Prop :=
  ∀ p, Saves x p []

namespace Saves

/-- What a step saves is seen from the files that it leaves. -/
theorem of_run {x : Serving σ ρ α} {r : Except ServeFault α} {saves : List Saving}
    (hrun : x.run p = (r, q)) (hsettings : q.settings = p.settings)
    (hfiles : q.files = p.files.saveAll saves) : Saves x p saves := by
  constructor <;> rw [hrun] <;> assumption

/-- A step that is taken behind another one adds what it saves. -/
theorem bind {x : Serving σ ρ α} {f : α → Serving σ ρ β} {a : α} {saves more : List Saving}
    (hrun : x.run p = (.ok a, q)) (hx : Saves x p saves) (hf : Saves (f a) q more) :
    Saves (x >>= f) p (saves ++ more) := by
  have hsettings := hx.settings
  have hfiles := hx.files
  rw [hrun] at hsettings hfiles
  constructor
  · rw [run_bind_ok hrun, hf.settings, hsettings]
  · rw [run_bind_ok hrun, hf.files, hfiles, FileSystem.saveAll_append]

/-- A step that fails saves what it has saved until then. -/
theorem bind_error {x : Serving σ ρ α} {f : α → Serving σ ρ β} {e : ServeFault}
    {saves : List Saving}
    (hrun : x.run p = (.error e, q)) (hx : Saves x p saves) : Saves (x >>= f) p saves := by
  have hsettings := hx.settings
  have hfiles := hx.files
  rw [hrun] at hsettings hfiles
  exact .of_run (run_bind_error hrun) hsettings hfiles

/-- What follows saves nothing more if it is quiet. -/
theorem bind_quiet {x : Serving σ ρ α} {f : α → Serving σ ρ β} {saves : List Saving}
    (hx : Saves x p saves) (hf : ∀ a, Quiet (f a)) : Saves (x >>= f) p saves := by
  rcases hrun : x.run p with ⟨e | a, q⟩
  · exact hx.bind_error hrun
  · have hboth := hx.bind hrun (hf a q)
    rwa [List.append_nil] at hboth

end Saves

namespace Quiet

/-- A step is quiet if it keeps the settings and the files. -/
theorem of_run {x : Serving σ ρ α}
    (h : ∀ p, ∃ r q, x.run p = (r, q) ∧ q.settings = p.settings ∧ q.files = p.files) : Quiet x := by
  intro p
  obtain ⟨r, q, hrun, hsettings, hfiles⟩ := h p
  exact .of_run hrun hsettings hfiles

theorem pure (a : α) : Quiet (pure a : Serving σ ρ α) :=
  fun _ => ⟨rfl, rfl⟩

theorem get : Quiet (get : Serving σ ρ (Provider σ ρ)) :=
  fun _ => ⟨rfl, rfl⟩

/-- Quiet steps may follow each other. -/
theorem bind {x : Serving σ ρ α} {f : α → Serving σ ρ β} (hx : Quiet x) (hf : ∀ a, Quiet (f a)) :
    Quiet (x >>= f) :=
  fun p => (hx p).bind_quiet hf

theorem report (level : Level) (message : String) :
    Quiet (report level message : Serving σ ρ Unit) :=
  fun _ => ⟨rfl, rfl⟩

theorem has [ModSource σ] (path : String) : Quiet (has path : Serving σ ρ Bool) :=
  fun _ => ⟨rfl, rfl⟩

theorem tryRead [ModSource σ] (path : String) :
    Quiet (tryRead path : Serving σ ρ (Except SourceFault Bytes)) :=
  fun _ => ⟨rfl, rfl⟩

theorem orFail {ε : Type} (wrap : ε → ServeFault) (r : Except ε α) :
    Quiet (orFail wrap r : Serving σ ρ α) := by
  intro p
  cases r <;> exact ⟨rfl, rfl⟩

/-- New names are quiet. -/
theorem rename [Renamer ρ] (c : ClassTree) : Quiet (rename c : Serving σ ρ ClassTree) :=
  fun _ => ⟨rfl, rfl⟩

theorem considerScreen (c : ClassTree) : Quiet (considerScreen c : Serving σ ρ Unit) :=
  of_run fun p =>
    have ⟨_, h⟩ := run_considerScreen c p
    ⟨_, _, h, rfl, rfl⟩

theorem patch (c : ClassTree) : Quiet (patch c : Serving σ ρ ClassTree) :=
  of_run fun p =>
    have ⟨_, h⟩ := run_patch c p
    ⟨_, _, h, rfl, rfl⟩

/-- A step behind one that saves nothing saves what it would save by itself. -/
theorem saves_bind {x : Serving σ ρ α} {f : α → Serving σ ρ β} {a : α} {saves : List Saving}
    (hx : Quiet x) (hrun : x.run p = (.ok a, q)) (hf : Saves (f a) q saves) :
    Saves (x >>= f) p saves :=
  (hx p).bind hrun hf

end Quiet

/-- A file is saved where it is to be saved. -/
theorem saves_trySave (path : String) (contents : Bytes) (p : Provider σ ρ) :
    Saves (trySave path contents) p [⟨path, contents⟩] :=
  .of_run (run_trySave path contents p) rfl rfl

/-! ## Mirrors -/

/-- What is saved in the part of the dump directory for a kind, if there is one. -/
def mirror (settings : Settings) (kind path : String) (contents : Bytes) : List Saving :=
  match settings.dumpDirectory with
  | none => []
  | some directory => [⟨Path.below (Path.join directory kind) path, contents⟩]

/-- What is mirrored of a class that has been made. -/
def mirrored (settings : Settings) (name : ClassName) :
    Except ServeFault (Option Bytes) → List Saving
  | .ok (some contents) => mirror settings "class" name.filePath contents
  | _ => []

/-- A dump is saved to the directory of dumps, if there is one. -/
theorem saves_dumpClass (name : ClassName) (contents : Bytes) (p : Provider σ ρ) :
    Saves (dumpClass name contents) p (mirror p.settings "class" name.filePath contents) := by
  refine Quiet.get.saves_bind (run_get p) ?_
  rw [mirror]
  cases p.settings.dumpDirectory with
  | none => exact Quiet.pure () p
  | some directory =>
    refine (saves_trySave _ contents p).bind_quiet fun saved => ?_
    cases saved with
    | ok _ => exact .pure ()
    | error fault => exact .report _ _

/-- The step makes a class, and mirrors it if it succeeds. -/
def Mirrors (name : ClassName) (x : Serving σ ρ (Option Bytes)) : Prop :=
  ∀ p, Saves x p (mirrored p.settings name (x.run p).1)

/-- Quiet steps in front change nothing. -/
theorem Mirrors.bind {name : ClassName} {x : Serving σ ρ α} {f : α → Serving σ ρ (Option Bytes)}
    (hx : Quiet x) (hf : ∀ a, Mirrors name (f a)) : Mirrors name (x >>= f) := by
  intro p
  have hsettings := (hx p).settings
  rcases hrun : x.run p with ⟨e | a, q⟩
  · rw [run_bind_error hrun]
    exact (hx p).bind_error hrun
  · rw [hrun] at hsettings
    rw [run_bind_ok hrun, ← hsettings]
    exact hx.saves_bind hrun (hf a q)

/-- A class that is made is mirrored. -/
theorem mirrors_transform [ModSource σ] [Renamer ρ] (name : ClassName) :
    Mirrors name (transform name : Serving σ ρ (Option Bytes)) := by
  refine .bind (.has _) fun found => ?_
  cases found with
  | false =>
    show Mirrors name (Provider.report _ _ >>= fun _ => pure none)
    exact .bind (.report _ _) fun _ p => Quiet.pure none p
  | true =>
    show Mirrors name (Provider.report _ _ >>= _)
    refine .bind (.report _ _) fun _ => .bind (.tryRead _) fun raw => ?_
    refine .bind (.orFail _ raw) fun raw => .bind (.orFail _ _) fun c => ?_
    refine .bind (.rename c) fun renamed => .bind (.considerScreen renamed) fun _ => ?_
    refine .bind (.patch renamed) fun patched => .bind (.orFail _ _) fun contents p => ?_
    obtain ⟨log, files, hdump⟩ := run_dumpClass name contents p
    rw [run_bind_ok hdump]
    exact (saves_dumpClass name contents p).bind_quiet fun _ => .pure _

/-! ## Classes -/

/-- Keeping something is quiet. -/
theorem quiet_keep {s : Shelf σ ρ α}
    (hput : ∀ m p, (s.put m p).settings = p.settings ∧ (s.put m p).files = p.files)
    (name : ClassName) (made : Option α) : Quiet (s.keep name made) := by
  cases made with
  | none => exact .pure none
  | some a => exact .bind (.of_run fun p => ⟨.ok (), _, rfl, hput _ p⟩) fun _ => .pure _

/-- Nothing is saved for what is kept, and for anything else what making it saves. -/
theorem saves_lookup {s : Shelf σ ρ α} {name : ClassName} {make : Serving σ ρ (Option α)}
    {saves : List Saving}
    (hput : ∀ m p, (s.put m p).settings = p.settings ∧ (s.put m p).files = p.files)
    (hmake : Saves make p saves) :
    Saves (s.lookup name make) p (if name ∈ s.items p then [] else saves) := by
  cases hitem : (s.items p)[name]? with
  | some a =>
    rw [if_pos (Std.HashMap.getElem?_eq_some_iff.1 hitem).1]
    exact .of_run (Shelf.run_lookup_of_kept hitem) rfl rfl
  | none =>
    have hmem : name ∉ s.items p := (getElem?_eq_none_iff _ _).1 hitem
    -- Keeping what was made saves nothing more.
    have hmade := hmake.bind_quiet (quiet_keep hput name)
    rw [if_neg hmem]
    exact .of_run (Shelf.run_lookup_of_missing hitem) hmade.settings hmade.files

variable [ModSource σ] [Renamer ρ]

/-- What is mirrored when a class is asked for: nothing, if the class is ready. -/
def mirrorings (p : Provider σ ρ) (name : ClassName) : List Saving :=
  if name ∈ p.classes then [] else mirrored p.settings name ((transform name).run p).1

/-- Without a dump directory nothing is mirrored. -/
theorem mirrorings_of_none (hdump : p.settings.dumpDirectory = none) (name : ClassName) :
    p.mirrorings name = [] := by
  rw [mirrorings]
  split
  · rfl
  · generalize ((transform name).run p).1 = made
    rcases made with e | _ | contents
    · rfl
    · rfl
    · rw [mirrored, mirror, hdump]

/-- A lookup of a class saves its mirror, if it is made. -/
theorem saves_classBytes (name : ClassName) (p : Provider σ ρ) :
    Saves (classBytes name) p (p.mirrorings name) := by
  rw [classBytes_eq]
  exact saves_lookup (fun _ _ => ⟨rfl, rfl⟩) (mirrors_transform name p)

/-- What is saved when a class is put into a file: its bytes at the path, behind what is mirrored.
-/
def puttings (p : Provider σ ρ) (name : ClassName) (path : String) : List Saving :=
  p.mirrorings name ++
    match ((classBytes name).run p).1 with
    | .ok (some contents) => [⟨path, contents⟩]
    | _ => []

/-- A step behind the lookup of a class that saves its bytes, if there are any, and nothing else. -/
theorem saves_putting {name : ClassName} {path : String} {f : Option Bytes → Serving σ ρ α}
    (hnone : Quiet (f none))
    (hsome : ∀ contents q, q.settings = p.settings →
      Saves (f (some contents)) q [⟨path, contents⟩]) :
    Saves (classBytes name >>= f) p (p.puttings name path) := by
  have hlookup := saves_classBytes name p
  have hsettings := hlookup.settings
  rw [puttings]
  rcases hrun : (classBytes name).run p with ⟨e | _ | contents, q⟩
  · rw [List.append_nil]
    exact hlookup.bind_error hrun
  · exact hlookup.bind hrun (hnone q)
  · rw [hrun] at hsettings
    exact hlookup.bind hrun (hsome contents q hsettings)

/-! ## Resources -/

omit [ModSource σ] [Renamer ρ] in

/-- The file of a class is saved in the temporary directory. -/
theorem saves_place (name : ClassName) (contents : Bytes) (p : Provider σ ρ) :
    Saves (place name (some contents)) p
      [⟨Path.below p.settings.tempDirectory name.filePath, contents⟩] := by
  refine Quiet.get.saves_bind (run_get p) ?_
  refine (saves_trySave _ contents p).bind_quiet fun saved => .bind (.orFail _ saved) fun _ => ?_
  exact .bind (.report _ _) fun _ => .bind .get fun _ => .pure _

/-- What is saved when a class is served as a resource. -/
def placings (p : Provider σ ρ) (name : ClassName) : List Saving :=
  if name ∈ p.materialized then []
  else p.puttings name (Path.below p.settings.tempDirectory name.filePath)

/-- A class that is put in place is mirrored before, if it is made. -/
theorem saves_classResource (name : ClassName) (p : Provider σ ρ) :
    Saves (classResource name) p (p.placings name) := by
  rw [classResource_eq_lookup]
  refine saves_lookup (fun _ _ => ⟨rfl, rfl⟩) (saves_putting (.pure none) fun contents q hq => ?_)
  rw [← hq]
  exact saves_place name contents q

/-- What is mirrored of a resource that is no class. -/
def copies (p : Provider σ ρ) (path : String) : List Saving :=
  if ModSource.has p.files p.source path then
    match (ModSource.read p.files p.source path).1 with
    | .ok contents => mirror p.settings "resource" path contents
    | .error _ => []
  else []

omit [Renamer ρ] in

/-- Any other file is copied. -/
theorem saves_plainResource (path : String) (p : Provider σ ρ) :
    Saves (plainResource path) p (p.copies path) := by
  refine (Quiet.has path).saves_bind (run_has path p) ?_
  rw [copies]
  -- The only file that is put is the copy of what is read, where there is a directory for it.
  cases ModSource.has p.files p.source path with
  | false => exact Quiet.pure none p
  | true =>
    show Saves (dumpResource path >>= _) p _
    refine Saves.bind_quiet ?_ fun _ => .bind .get fun _ => .bind (.orFail _ _) fun _ => .pure _
    refine Quiet.get.saves_bind (run_get p) ?_
    cases hdump : p.settings.dumpDirectory with
    | none =>
      have hnone : (match (ModSource.read p.files p.source path).1 with
          | .ok contents => mirror p.settings "resource" path contents
          | .error _ => []) = [] := by
        split
        · rw [mirror, hdump]
        · rfl
      rw [if_pos rfl, hnone]
      exact Quiet.pure () p
    | some directory =>
      refine (Quiet.tryRead path).saves_bind (run_tryRead path p) ?_
      rw [if_pos rfl]
      cases (ModSource.read p.files p.source path).1 with
      | error fault => exact Quiet.report _ _ _
      | ok contents =>
        simp only [mirror, hdump]
        refine (saves_trySave _ contents _).bind_quiet fun saved => ?_
        cases saved with
        | ok _ => exact .pure ()
        | error fault => exact .report _ _

end Provider

/-! ## Requests -/

namespace Request

open Provider

variable {σ ρ : Type} [ModSource σ] [Renamer ρ]

/-- What a request saves, in order. -/
def saves (request : Request) (p : Provider σ ρ) : List Saving :=
  match request with
  | classBytes name | classTree name => p.mirrorings name
  | resource path =>
    match ClassName.ofFilePath? path with
    | some name => p.placings name
    | none => p.copies path

/-- Whatever is performed saves what the request lists. -/
theorem saves_perform (request : Request) (p : Provider σ ρ) :
    Saves request.perform p (request.saves p) := by
  cases request with
  | classBytes name => exact (saves_classBytes name p).bind_quiet fun _ => .pure ()
  | classTree name =>
    refine Saves.bind_quiet ?_ fun _ => .pure ()
    refine (saves_classBytes name p).bind_quiet fun contents => ?_
    cases contents with
    | none => exact .pure none
    | some contents => exact .bind (.orFail _ _) fun _ => .pure _
  | resource path =>
    refine Saves.bind_quiet ?_ fun _ => .pure ()
    rw [Provider.resource, saves]
    cases ClassName.ofFilePath? path with
    | some name => exact saves_classResource name p
    | none => exact saves_plainResource path p

/-- All that a request does to files is to save some. -/
theorem files_after (request : Request) (p : Provider σ ρ) :
    (request.after p).files = p.files.saveAll (request.saves p) :=
  (request.saves_perform p).files

end Request

end Crosswalk
