import Crosswalk.Proofs.Provider.Saves
import Crosswalk.Proofs.Provider.Settled

/-!
# Providers that differ in their dumps

Two providers are twins if they are the same but for the dump directory, the log and the files that
lie away from where they work (`Provider.Twin`). A step is `Provider.Blind` if it does the same for
twins and leaves twins behind. Every step of a provider is blind: dumping changes nothing where the
work is done (`Provider.Blind.of_dumps`), and what is saved there is saved alike
(`Provider.Blind.trySave`).
-/

namespace Crosswalk

open FileSystem (Alike Apart Closed Grows Saving Separate)

/-! ## Where a provider works -/

/-- Where a provider works: the working directory, the temporary directory with its path and its
place, and the places of the mod, if it has any. -/
structure Site where
  workingDirectory : Place
  temp : String
  place : Place
  mod : List Place

namespace Site

variable {site : Site} {fs fs' next : FileSystem}

/-- Where a path starts. -/
def start (site : Site) (path : String) : Place :=
  if Path.isAbsolute path then [] else site.workingDirectory

/-- A path keeps away from the temporary directory, and does not end in the mod. -/
structure Avoids (site : Site) (path : String) : Prop where
  temp : Apart (site.start path) path site.place
  mod : ∀ root ∈ site.mod, Separate (site.start path) path root

/-- Two file systems are alike where a provider works, and the temporary directory can be reached in
both. -/
structure Beside (site : Site) (fs fs' : FileSystem) : Prop where
  alike : Alike site.place site.mod fs fs'
  workingDirectory : fs.workingDirectory = site.workingDirectory
  reaches : fs.Reaches site.temp site.place
  reaches' : fs'.Reaches site.temp site.place

namespace Beside

theorem symm (h : site.Beside fs fs') : site.Beside fs' fs :=
  ⟨h.alike.symm, h.alike.workingDirectory.trans h.workingDirectory, h.reaches', h.reaches⟩

/-- One of the two may grow as long as it does so elsewhere. -/
theorem grown (h : site.Beside fs fs') (halike : Alike site.place site.mod fs' next)
    (hgrows : Grows fs' next) :
    site.Beside fs next :=
  ⟨h.alike.trans halike, h.workingDirectory, h.reaches, h.reaches'.grows hgrows⟩

/-- The same is saved below the temporary directory in both. -/
theorem save (h : site.Beside fs fs') {path : String} (hnames : Path.names path ≠ [])
    (contents : Bytes) :
    (fs'.save (Path.below site.temp path) contents).2 =
        (fs.save (Path.below site.temp path) contents).2 ∧
      site.Beside (fs.save (Path.below site.temp path) contents).1
        (fs'.save (Path.below site.temp path) contents).1 := by
  have hgrows := FileSystem.grows_save fs (Path.below site.temp path) contents
  have hgrows' := FileSystem.grows_save fs' (Path.below site.temp path) contents
  obtain ⟨hsame, halike⟩ := h.alike.save h.reaches h.reaches' hnames contents
  exact ⟨hsame, halike, hgrows.workingDirectory.trans h.workingDirectory, h.reaches.grows hgrows,
    h.reaches'.grows hgrows'⟩

end Beside

end Site

namespace Provider

variable {σ ρ α β : Type}

/-! ## Dumps -/

/-- The path is that of a dump. -/
def IsDump (settings : Settings) (path : String) : Prop :=
  ∃ directory kind name, settings.dumpDirectory = some directory ∧ kind ∈ ["class", "resource"] ∧
    path = Path.below (Path.join directory kind) name

/-- What is mirrored is a dump. -/
theorem isDump_of_mem {settings : Settings} {kind path : String} {contents : Bytes} {s : Saving}
    (hkind : kind ∈ ["class", "resource"]) (h : s ∈ mirror settings kind path contents) :
    IsDump settings s.path := by
  rw [mirror] at h
  split at h
  · cases h
  · next directory hdump =>
    obtain rfl := List.mem_singleton.1 h
    exact ⟨directory, kind, path, hdump, hkind, rfl⟩

/-- Dumps change nothing where a provider works. -/
theorem alike_saveAll {site : Site} {settings : Settings} {fs : FileSystem} {saves : List Saving}
    (hclosed : Closed fs) (hworking : fs.workingDirectory = site.workingDirectory)
    (havoids : ∀ directory ∈ settings.dumpDirectory, site.Avoids directory)
    (hsaves : ∀ s ∈ saves, IsDump settings s.path) :
    Alike site.place site.mod fs (fs.saveAll saves) := by
  induction saves generalizing fs with
  | nil => exact .refl hclosed
  | cons s rest ih =>
    obtain ⟨directory, kind, name, hdump, hkind, hpath⟩ := hsaves s List.mem_cons_self
    have hkinds : ∀ kind ∈ ["class", "resource"], '/' ∉ kind.toList ∧ Path.isName kind = true := by
      decide
    have hname := hkinds kind hkind
    have horigin : fs.origin s.path = site.start directory := by
      obtain ⟨habsolute, -⟩ := Path.parts_of_isName hname.1 hname.2
      rw [FileSystem.origin, Site.start, hpath, Path.isAbsolute_below,
        Path.isAbsolute_join directory habsolute, hworking]
    have havoid := havoids directory hdump
    have halike : Alike site.place site.mod fs (fs.save s.path s.contents).1 := by
      refine FileSystem.alike_save hclosed ?_ (fun root hroot => ?_) s.contents <;>
        rw [horigin, hpath]
      · exact havoid.temp.below hname.1 hname.2
      · exact (havoid.mod root hroot).below hname.1 hname.2
    exact halike.trans <| ih halike.closed' (halike.workingDirectory.trans hworking) fun s hs =>
      hsaves s (List.mem_cons_of_mem _ hs)

/-- The step dumps something, or nothing, and does nothing else. -/
def Dumps (x : Serving σ ρ Unit) (p : Provider σ ρ) : Prop :=
  ∃ log saves, x.run p = (.ok (), { p with log, files := p.files.saveAll saves }) ∧
    ∀ s ∈ saves, IsDump p.settings s.path

/-- A dump of a class only saves dumps. -/
theorem dumps_dumpClass (name : ClassName) (contents : Bytes) (p : Provider σ ρ) :
    Dumps (dumpClass name contents) p := by
  obtain ⟨log, files, hrun⟩ := run_dumpClass name contents p
  have hfiles := (saves_dumpClass name contents p).files
  rw [hrun] at hfiles
  subst hfiles
  exact ⟨log, _, hrun, fun s hs => isDump_of_mem (by decide) hs⟩

theorem dumps_dumpResource [ModSource σ] {p : Provider σ ρ}
    (hsame : ∀ path, (ModSource.read p.files p.source path).2 = p.source) (name : String) :
    Dumps (dumpResource name) p := by
  rw [Dumps, dumpResource, run_bind_ok (run_get p)]
  cases hdump : p.settings.dumpDirectory with
  | none => exact ⟨p.log, [], rfl, by simp⟩
  | some directory =>
    simp only
    rw [run_bind_ok (run_tryRead ..), hsame]
    cases (ModSource.read p.files p.source name).1 with
    | error fault => exact ⟨_, [], run_report .., by simp⟩
    | ok contents =>
      generalize hpath : Path.below (Path.join directory "resource") name = path
      have hsaves : ∀ s ∈ [Saving.mk path contents], IsDump p.settings s.path := by
        intro s hs
        obtain rfl := List.mem_singleton.1 hs
        exact ⟨directory, "resource", name, hdump, by decide, hpath.symm⟩
      simp only
      rw [run_bind_ok (run_trySave ..)]
      cases (p.files.save path contents).2 with
      | error fault => exact ⟨_, [⟨path, contents⟩], run_report .., hsaves⟩
      | ok _ => exact ⟨p.log, [⟨path, contents⟩], rfl, hsaves⟩

/-! ## Twins -/

section Twins

variable [ModSource σ] {site : Site} {p q : Provider σ ρ}

/-- Two providers that work at the same site differ at most in the dump directory, in the log, and
in the files elsewhere. -/
structure Twin (site : Site) (p q : Provider σ ρ) : Prop where
  settings : q.settings = { p.settings with dumpDirectory := q.settings.dumpDirectory }
  temp : p.settings.tempDirectory = site.temp
  avoids : ∀ directory ∈ p.settings.dumpDirectory, site.Avoids directory
  avoids' : ∀ directory ∈ q.settings.dumpDirectory, site.Avoids directory
  source : q.source = p.source
  settled : ModSource.Settled site.mod p.source
  renamer : q.renamer = p.renamer
  candidates : q.candidates = p.candidates
  classes : q.classes = p.classes
  materialized : q.materialized = p.materialized
  files : site.Beside p.files q.files

namespace Twin

/-- Twins may have different logs. -/
theorem log (h : Twin site p q) (log log' : Array Record) :
    Twin site { p with log } { q with log := log' } :=
  { h with }

/-- Twins find the same in the mod. -/
theorem has (h : Twin site p q) (path : String) :
    ModSource.has q.files q.source path = ModSource.has p.files p.source path := by
  rw [h.source, h.settled.has h.files.alike]

theorem read (h : Twin site p q) {path : String}
    (hhas : ModSource.has p.files p.source path = true) :
    ModSource.read q.files q.source path = ModSource.read p.files p.source path := by
  refine Prod.ext ?_ ?_
  · rw [h.source, h.settled.read h.files.alike path hhas]
  · rw [h.source, h.settled.same, h.settled.same]

theorem temp' (h : Twin site p q) : q.settings.tempDirectory = site.temp := by
  rw [h.settings]
  exact h.temp

/-- Twins judge and change a class alike. -/
theorem isScreen (h : Twin site p q) (c : ClassTree) :
    c.isScreen q.settings = c.isScreen p.settings := by
  rw [h.settings]
  rfl

theorem widen (h : Twin site p q) (c : ClassTree) : c.widen q.settings = c.widen p.settings := by
  rw [h.settings]
  rfl

end Twin

/-- The step does the same for twins, and leaves twins behind. -/
def Blind (site : Site) (x : Serving σ ρ α) : Prop :=
  ∀ p q, Twin site p q → (x.run q).1 = (x.run p).1 ∧ Twin site (x.run p).2 (x.run q).2

namespace Blind

/-! ## Steps -/

/-- A step is blind if it answers twins alike and leaves twins. -/
theorem of_run {x : Serving σ ρ α} (h : ∀ p q, Twin site p q → ∃ r p' q', x.run p = (r, p') ∧
    x.run q = (r, q') ∧ Twin site p' q') : Blind site x := by
  intro p q htwin
  obtain ⟨r, p', q', hp, hq, htwin'⟩ := h p q htwin
  rw [hp, hq]
  exact ⟨rfl, htwin'⟩

theorem pure (a : α) : Blind site (pure a : Serving σ ρ α) :=
  fun _ _ h => ⟨rfl, h⟩

/-- Blind steps may follow each other. -/
theorem bind {x : Serving σ ρ α} {f : α → Serving σ ρ β} (hx : Blind site x)
    (hf : ∀ a, Blind site (f a)) : Blind site (x >>= f) := by
  intro p q h
  obtain ⟨hsame, htwin⟩ := hx p q h
  rcases hp : x.run p with ⟨e | a, p'⟩ <;> rcases hq : x.run q with ⟨r, q'⟩ <;>
    rw [hp, hq] at hsame htwin <;> cases hsame
  · rw [run_bind_error hp, run_bind_error hq]
    exact ⟨rfl, htwin⟩
  · rw [run_bind_ok hp, run_bind_ok hq]
    exact hf a p' q' htwin

/-- A step that looks at the provider is blind if it goes on alike for twins. -/
theorem get_bind {f : Provider σ ρ → Serving σ ρ α}
    (hf : ∀ p q, Twin site p q → f q = f p ∧ Blind site (f p)) : Blind site (get >>= f) := by
  intro p q h
  obtain ⟨hsame, hblind⟩ := hf p q h
  rw [run_bind_ok (run_get p), run_bind_ok (run_get q), hsame]
  exact hblind p q h

theorem orFail {ε : Type} (wrap : ε → ServeFault) (r : Except ε α) :
    Blind site (orFail wrap r : Serving σ ρ α) := by
  intro p q h
  cases r <;> exact ⟨rfl, h⟩

theorem report (level : Level) (message : String) :
    Blind site (report level message : Serving σ ρ Unit) :=
  fun _ _ h => ⟨rfl, h.log _ _⟩

theorem has (path : String) : Blind site (has path : Serving σ ρ Bool) :=
  fun _ _ h => ⟨congrArg Except.ok (h.has path), h⟩

/-- What is saved below the temporary directory is saved by both. -/
theorem trySave {path : String} (hnames : Path.names path ≠ []) (contents : Bytes) :
    Blind site (trySave (Path.below site.temp path) contents :
      Serving σ ρ (Except FileFault Unit)) := by
  intro p q h
  have hsaved := h.files.save hnames contents
  rw [run_trySave, run_trySave]
  generalize p.files.save (Path.below site.temp path) contents = saved at hsaved ⊢
  generalize q.files.save (Path.below site.temp path) contents = saved' at hsaved ⊢
  obtain ⟨hsame, hbeside⟩ := hsaved
  exact ⟨congrArg Except.ok hsame, { h with files := hbeside }⟩

/-- Dumps make no difference. -/
theorem of_dumps {x : Serving σ ρ Unit}
    (hx : ∀ p : Provider σ ρ, ModSource.Settled site.mod p.source → Dumps x p) : Blind site x := by
  refine of_run fun p q h => ?_
  obtain ⟨log, saves, hp, hsaves⟩ := hx p h.settled
  obtain ⟨log', saves', hq, hsaves'⟩ := hx q (h.source ▸ h.settled)
  refine ⟨_, _, _, hp, hq, { h with files := ?_ }⟩
  have hright := h.files.grown
    (alike_saveAll h.files.alike.closed' (h.files.symm.workingDirectory) h.avoids' hsaves')
    (FileSystem.grows_saveAll q.files saves')
  exact (hright.symm.grown
    (alike_saveAll h.files.alike.closed h.files.workingDirectory h.avoids hsaves)
    (FileSystem.grows_saveAll p.files saves)).symm

theorem considerScreen (c : ClassTree) : Blind site (considerScreen c : Serving σ ρ Unit) := by
  refine of_run fun p q h => ?_
  obtain ⟨log, hp⟩ := run_considerScreen c p
  obtain ⟨log', hq⟩ := run_considerScreen c q
  refine ⟨_, _, _, hp, hq, { h with candidates := ?_ }⟩
  show q.considered c = p.considered c
  rw [considered, considered, h.isScreen, h.candidates]

theorem patch (c : ClassTree) : Blind site (patch c : Serving σ ρ ClassTree) := by
  refine of_run fun p q h => ?_
  obtain ⟨log, hp⟩ := run_patch c p
  obtain ⟨log', hq⟩ := run_patch c q
  rw [h.widen] at hq
  exact ⟨_, _, _, hp, hq, h.log log log'⟩

/-- What is kept in a place that twins have in common is looked up alike. -/
theorem lookup {s : Shelf σ ρ α} (hitems : ∀ {p q}, Twin site p q → s.items q = s.items p)
    (hput : ∀ {p q}, Twin site p q → ∀ m, Twin site (s.put m p) (s.put m q)) (name : ClassName)
    {make : Serving σ ρ (Option α)} (hmake : Blind site make) :
    Blind site (s.lookup name make) := by
  refine get_bind fun p q h => ?_
  rw [hitems h]
  refine ⟨rfl, ?_⟩
  cases (s.items p)[name]? with
  | some a => exact pure _
  | none =>
    refine bind hmake fun made => ?_
    cases made with
    | none => exact pure none
    | some a =>
      refine bind (of_run fun p q h => ⟨_, _, _, rfl, rfl, ?_⟩) fun _ => pure (some a)
      show Twin site (s.put ((s.items p).insert name a) p) (s.put ((s.items q).insert name a) q)
      rw [hitems h]
      exact hput h _

variable [Renamer ρ]

theorem rename (c : ClassTree) : Blind site (rename c : Serving σ ρ ClassTree) := by
  intro p q h
  rw [run_rename, run_rename, h.renamer]
  exact ⟨rfl, { h with renamer := rfl }⟩

/-! ## Classes -/

/-- What is made of a file is made blindly. -/
theorem digest (name : ClassName) (raw : Except SourceFault Bytes) :
    Blind site (digest name raw : Serving σ ρ (Option Bytes)) := by
  refine bind (orFail _ raw) fun raw => bind (orFail _ _) fun c => ?_
  refine bind (rename c) fun renamed => bind (considerScreen renamed) fun _ => ?_
  refine bind (patch renamed) fun patched => bind (orFail _ _) fun contents => ?_
  exact bind (of_dumps fun p _ => dumps_dumpClass name contents p) fun _ => pure _

theorem transform (name : ClassName) :
    Blind site (transform name : Serving σ ρ (Option Bytes)) := by
  intro p q h
  cases hhas : ModSource.has p.files p.source name.filePath with
  | false =>
    rw [run_transform_of_absent hhas, run_transform_of_absent ((h.has _).trans hhas)]
    exact ⟨rfl, h.log _ _⟩
  | true =>
    rw [run_transform_of_has hhas, run_transform_of_has ((h.has _).trans hhas), h.read hhas,
      h.settled.same]
    exact digest name _ _ _ { h with source := rfl }

/-- A lookup of a class is blind. -/
theorem classBytes (name : ClassName) :
    Blind site (classBytes name : Serving σ ρ (Option Bytes)) := by
  rw [classBytes_eq]
  exact lookup (fun h => h.classes) (fun h _ => { h with classes := rfl }) name (transform name)

theorem classTree (name : ClassName) :
    Blind site (classTree name : Serving σ ρ (Option ClassTree)) := by
  refine bind (classBytes name) fun contents => ?_
  cases contents with
  | none => exact pure none
  | some contents => exact bind (orFail _ _) fun c => pure (some c)

/-! ## Resources -/

omit [Renamer ρ] in
theorem place (name : ClassName) (contents : Option Bytes) :
    Blind site (place name contents : Serving σ ρ (Option Location)) := by
  cases contents with
  | none => exact pure none
  | some contents =>
    refine get_bind fun p q h => ?_
    rw [h.temp, h.temp']
    refine ⟨rfl, bind (trySave name.names_filePath_ne_nil contents) fun saved => ?_⟩
    refine bind (orFail _ saved) fun _ => bind (report _ _) fun _ => get_bind fun p q h => ?_
    rw [h.files.alike.workingDirectory]
    exact ⟨rfl, pure _⟩

theorem classResource (name : ClassName) :
    Blind site (classResource name : Serving σ ρ (Option Location)) := by
  rw [classResource_eq_lookup]
  exact lookup (fun h => h.materialized) (fun h _ => { h with materialized := rfl }) name
    (bind (classBytes name) fun contents => place name contents)

omit [Renamer ρ] in
theorem plainResource (path : String) :
    Blind site (plainResource path : Serving σ ρ (Option Location)) := by
  refine bind (has path) fun found => ?_
  cases found with
  | false => exact pure none
  | true =>
    show Blind site (dumpResource path >>= _)
    refine bind (of_dumps fun p h => dumps_dumpResource (h.same _) path) fun _ => ?_
    refine get_bind fun p q h => ?_
    rw [h.source, h.settled.locate h.files.alike]
    exact ⟨rfl, bind (orFail _ _) fun location => pure _⟩

theorem resource (path : String) : Blind site (resource path : Serving σ ρ (Option Location)) := by
  rw [Provider.resource]
  cases ClassName.ofFilePath? path with
  | some name => exact classResource name
  | none => exact plainResource path

end Blind

end Twins

end Provider

end Crosswalk
