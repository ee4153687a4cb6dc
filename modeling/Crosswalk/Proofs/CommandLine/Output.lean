import Crosswalk.CommandLine.Run
import Crosswalk.Proofs.ClassTree.Bare
import Crosswalk.Proofs.Provider.Saves

/-!
# Where classes are written

All that a run of the command line does to files is to save classes (`CommandLine.files_run`). The
path of each goes on from the output directory, but is taken as it is where the name of the class
makes it an absolute one. So a class is written below the output directory unless its name starts
with a slash or a dot.
-/

namespace Crosswalk.CommandLine

open FileSystem (Saving)
open Provider (Saves Quiet)

/-! ## Writing classes -/

section Writing

variable {p : Provider Mod (Option NameTable)}

/-- The bytes of a class are saved at its path, seen from the output directory. -/
theorem saves_writeClass (output : String) (name : ClassName)
    (p : Provider Mod (Option NameTable)) :
    Saves (writeClass output name) p (p.puttings name (Path.join output name.filePath)) := by
  refine Provider.saves_putting (.report _ _) fun contents q _ => ?_
  refine (Quiet.report _ _).saves_bind (Provider.run_report ..) ?_
  exact (Provider.saves_trySave _ contents _).bind_quiet fun saved => .orFail _ saved

/-- What is saved for classes in order, up to the first one that fails. -/
def outputs (output : String) : List ClassName → Provider Mod (Option NameTable) → List Saving
  | [], _ => []
  | name :: rest, p =>
    p.puttings name (Path.join output name.filePath) ++
      match (writeClass output name).run p with
      | (.ok (), q) => outputs output rest q
      | (.error _, _) => []

/-- Writing classes saves what is listed, and nothing else. -/
theorem saves_outputs (output : String) (names : List ClassName)
    (p : Provider Mod (Option NameTable)) :
    Saves (names.forM (writeClass output)) p (outputs output names p) := by
  induction names generalizing p with
  | nil => exact Quiet.pure () p
  | cons name rest ih =>
    have hfirst := saves_writeClass output name p
    show Saves (writeClass output name >>= fun _ => rest.forM (writeClass output)) p _
    rw [outputs]
    rcases hrun : (writeClass output name).run p with ⟨e | _, q⟩
    · rw [List.append_nil]
      exact hfirst.bind_error hrun
    · exact hfirst.bind hrun (ih q)

/-- Without mirrors, only the classes themselves are saved. -/
theorem path_of_mem_outputs {output : String} {names : List ClassName} {s : Saving}
    (hdump : p.settings.dumpDirectory = none) (h : s ∈ outputs output names p) :
    ∃ name ∈ names, s.path = Path.join output name.filePath := by
  induction names generalizing p with
  | nil => cases h
  | cons name rest ih =>
    have hsettings := (saves_writeClass output name p).settings
    rw [outputs, Provider.puttings, Provider.mirrorings_of_none hdump, List.nil_append] at h
    rcases List.mem_append.1 h with h | h
    · split at h
      · obtain rfl := List.mem_singleton.1 h
        exact ⟨name, List.mem_cons_self, rfl⟩
      · cases h
    · split at h
      · next q hrun =>
        rw [hrun] at hsettings
        obtain ⟨other, hother, hpath⟩ := ih (hsettings ▸ hdump) h
        exact ⟨other, List.mem_cons_of_mem _ hother, hpath⟩
      · cases h

end Writing

/-! ## Getting ready -/

variable {α β : Type}

/-- What follows only happens if nothing has failed. -/
theorem run_bind (x : Run α) (f : α → Run β) (s : FileSystem × Array Record) :
    (x >>= f).run s =
      match x.run s with
      | (.ok a, s) => (f a).run s
      | (.error e, s) => (.error e, s) := by
  rw [ExceptT.run_bind]
  simp only [bind, StateT.bind]
  rcases x.run s with ⟨e | a, s⟩ <;> rfl

/-- The step leaves files alone, and what it answers is as it should be. -/
def Prepares (x : Run α) (ok : α → Prop) : Prop :=
  ∀ s, (x.run s).2.1 = s.1 ∧ ∀ a, (x.run s).1 = .ok a → ok a

namespace Prepares

/-- Preparations may follow each other. -/
theorem bind {x : Run α} {f : α → Run β} {ok : α → Prop} {ok' : β → Prop} (hx : Prepares x ok)
    (hf : ∀ a, ok a → Prepares (f a) ok') : Prepares (x >>= f) ok' := by
  intro s
  obtain ⟨hfiles, hok⟩ := hx s
  rw [run_bind]
  rcases hrun : x.run s with ⟨e | a, s'⟩ <;> rw [hrun] at hfiles hok
  · exact ⟨hfiles, fun _ h => by cases h⟩
  · obtain ⟨hfiles', hok'⟩ := hf a (hok a rfl) s'
    exact ⟨hfiles'.trans hfiles, hok'⟩

theorem pure {a : α} {ok : α → Prop} (h : ok a) : Prepares (pure a) ok :=
  fun _ => ⟨rfl, fun _ h' => by cases h'; exact h⟩

theorem throw {ok : α → Prop} (e : ServeFault) : Prepares (throw e : Run α) ok :=
  fun _ => ⟨rfl, fun _ h => by cases h⟩

theorem get : Prepares (get : Run (FileSystem × Array Record)) fun _ => True :=
  fun _ => ⟨rfl, fun _ _ => trivial⟩

theorem report (level : Level) (message : String) : Prepares (report level message) fun _ => True :=
  fun _ => ⟨rfl, fun _ _ => trivial⟩

theorem orFail {ε : Type} (wrap : ε → ServeFault) (r : Except ε α) :
    Prepares (orFail wrap r) fun _ => True := by
  intro s
  cases r <;> exact ⟨rfl, fun _ _ => trivial⟩

/-- Mappings are read without any change. -/
theorem readMappings (path : String) : Prepares (readMappings path) fun _ => True := by
  refine bind (report _ _) fun _ _ => bind get fun s _ => ?_
  split
  · exact throw _
  · exact orFail _ _

end Prepares

/-- The base classes of configuration screens have nothing to do with the dump directory. -/
theorem dumpDirectory_resolveScreenBases (settings : Settings) (resolver : Resolver) :
    (settings.resolveScreenBases resolver).1.dumpDirectory = settings.dumpDirectory := by
  have hadd : ∀ (s : Settings × List Record) (base : String × String),
      (Settings.addScreenBase resolver s base).1.dumpDirectory = s.1.dumpDirectory := by
    intro s base
    rw [Settings.addScreenBase]
    split <;> rfl
  rw [Settings.resolveScreenBases, Settings.knownScreenBases, List.foldl_cons, List.foldl_cons,
    List.foldl_nil, hadd, hadd]

/-- Screens are resolved without any dump. -/
theorem prepares_resolveScreens {settings : Settings} (hdump : settings.dumpDirectory = none)
    (resolver : Resolver) :
    Prepares (resolveScreens settings resolver) fun settings => settings.dumpDirectory = none := by
  intro s
  refine ⟨rfl, fun a h => ?_⟩
  cases h
  exact (dumpDirectory_resolveScreenBases settings resolver).trans hdump

/-- The command line mirrors nothing. -/
theorem prepares_prepare (r : Request) :
    Prepares (prepare r) fun prepared => prepared.1.dumpDirectory = none := by
  rw [prepare]
  cases r.mappings with
  | none => exact .bind (prepares_resolveScreens rfl _) fun settings h => .pure h
  | some path =>
    refine .bind (.readMappings path) fun mappings _ => .bind (.orFail _ _) fun resolver _ => ?_
    refine .bind (prepares_resolveScreens rfl resolver) fun settings h => ?_
    exact .bind (.orFail _ _) fun table _ => .pure h

/-! ## Runs -/

/-- The files are those of the provider afterwards. -/
theorem files_serve {σ ρ : Type} (provider : Provider σ ρ) (step : Serving σ ρ α)
    (s : FileSystem × Array Record) :
    ((serve provider step).run s).2.1 = (step.run provider).2.files := by
  show _ = ((ExceptT.run step).run provider).2.files
  rw [serve]
  rcases (ExceptT.run step).run provider with ⟨e | a, q⟩ <;> rfl

/-- What is reported first. -/
def opening (r : Request) : Record :=
  ⟨.info, s!"Opening mod '{r.mod}'"⟩

/-- A request opens the mod, gets ready, and writes the classes. -/
theorem run_work (r : Request) (files : FileSystem) : (work r).run (files, #[]) =
    match Mod.ofPath files r.mod with
    | .error fault => (.error (.source fault), (files, #[opening r]))
    | .ok mod =>
      match (prepare r).run (files, #[opening r]) with
      | (.error e, s) => (.error e, s)
      | (.ok (settings, table), s) =>
        (serve (.start settings mod table s.1 s.2)
          ((classNames r s.1 mod).forM (writeClass r.output))).run s := by
  rw [work, run_bind]
  show ((get >>= _ : Run Candidates).run (files, #[opening r])) = _
  rw [run_bind]
  show ((orFail ServeFault.source (Mod.ofPath files r.mod) >>= _ : Run Candidates).run
    (files, #[opening r])) = _
  rw [run_bind]
  cases Mod.ofPath files r.mod with
  | error fault => rfl
  | ok mod =>
    show ((prepare r >>= _ : Run Candidates).run (files, #[opening r])) = _
    rw [run_bind]
    rcases (prepare r).run (files, #[opening r]) with ⟨e | ⟨settings, table⟩, s⟩ <;> rfl

/-- The files of a run are those that its work leaves. -/
theorem files_runRequest (r : Request) (files : FileSystem) :
    (runRequest r files).files = ((work r).run (files, #[])).2.1 := by
  show _ = ((ExceptT.run (work r)).run (files, #[])).2.1
  rw [runRequest]
  rcases (ExceptT.run (work r)).run (files, #[]) with ⟨e | candidates, s⟩ <;> rfl

/-- A request whose mod can be opened, and that can get ready, saves its classes. -/
theorem files_runRequest_of_ready {r : Request} {mod : Mod} {files : FileSystem}
    {settings : Settings} {table : Option NameTable} {s : FileSystem × Array Record}
    (hmod : Mod.ofPath files r.mod = .ok mod)
    (hprepare : (prepare r).run (files, #[opening r]) = (.ok (settings, table), s)) :
    (runRequest r files).files = files.saveAll
      (outputs r.output (classNames r files mod) (.start settings mod table files s.2)) := by
  have hfiles : s.1 = files := by
    have hsame := (prepares_prepare r (files, #[opening r])).1
    rwa [hprepare] at hsame
  rw [files_runRequest, run_work, hmod]
  simp only [hprepare]
  rw [files_serve, (saves_outputs _ _ _).files, hfiles]
  rfl

/-- All that a request does to files is to save classes. -/
theorem exists_saves_runRequest (r : Request) (files : FileSystem) : ∃ saves,
    (runRequest r files).files = files.saveAll saves ∧ ∀ s ∈ saves, ∃ mod,
      Mod.ofPath files r.mod = .ok mod ∧ ∃ name ∈ classNames r files mod,
        s.path = Path.join r.output name.filePath := by
  have hprepares := prepares_prepare r (files, #[opening r])
  cases hmod : Mod.ofPath files r.mod with
  | error fault =>
    refine ⟨[], ?_, fun _ h => by cases h⟩
    rw [files_runRequest, run_work, hmod]
    rfl
  | ok mod =>
    rcases hprepare : (prepare r).run (files, #[opening r]) with ⟨e | ⟨settings, table⟩, s⟩
    · rw [hprepare] at hprepares
      refine ⟨[], ?_, fun _ h => by cases h⟩
      rw [files_runRequest, run_work, hmod]
      simp only [hprepare]
      exact hprepares.1
    · rw [hprepare] at hprepares
      refine ⟨_, files_runRequest_of_ready hmod hprepare, fun s hs => ⟨mod, rfl, ?_⟩⟩
      exact path_of_mem_outputs (hprepares.2 _ rfl) hs

/-- A class is written below the output directory exactly if the path of its file does not start
with a slash, or leads there by itself. -/
theorem under_output_iff (output : String) (name : ClassName) :
    Path.Under output (Path.join output name.filePath) ↔
      (Path.isAbsolute name.filePath = true → Path.Under output name.filePath) := by
  cases habsolute : Path.isAbsolute name.filePath with
  | true => simp [Path.join, habsolute]
  | false =>
    have hunder := Path.under_join output habsolute fun _ => ClassName.isName_of_mem_parts
    simp [hunder]

/-- All that a run does to files is to save classes that are asked for, or that the mod has. Every
file it leaves was there before, or is where the path of such a class leads. That path goes on from
the output directory, and lies below it unless it is an absolute path itself that leads elsewhere.
-/
theorem files_run (arguments : List String) (files : FileSystem) (helpText : String) :
    let after := (run arguments files helpText).files
    ∃ saves, after = files.saveAll saves ∧
      (∀ place contents, after.node? place = some (.file contents) →
        files.node? place = some (.file contents) ∨
          ∃ s ∈ saves, s.contents = contents ∧ after.place s.path = .ok place) ∧
      ∀ s ∈ saves, ∃ r mod name, Invocation.ofArguments arguments = .work r ∧
        Mod.ofPath files r.mod = .ok mod ∧ name ∈ classNames r files mod ∧
        s.path = Path.join r.output name.filePath ∧
        (Path.Under r.output s.path ↔
          (Path.isAbsolute name.filePath = true → Path.Under r.output name.filePath)) := by
  intro after
  have hsaves : ∃ saves, after = files.saveAll saves ∧ ∀ s ∈ saves, ∃ r mod name,
      Invocation.ofArguments arguments = .work r ∧ Mod.ofPath files r.mod = .ok mod ∧
        name ∈ classNames r files mod ∧ s.path = Path.join r.output name.filePath := by
    show ∃ saves, (run arguments files helpText).files = files.saveAll saves ∧ _
    rw [run]
    cases Invocation.ofArguments arguments with
    | work r =>
      obtain ⟨saves, hfiles, hpaths⟩ := exists_saves_runRequest r files
      refine ⟨saves, hfiles, fun s hs => ?_⟩
      obtain ⟨mod, hmod, name, hname, hpath⟩ := hpaths s hs
      exact ⟨r, mod, name, rfl, hmod, hname, hpath⟩
    | help | version | misuse => exact ⟨[], rfl, fun _ h => by cases h⟩
  obtain ⟨saves, hafter, hpaths⟩ := hsaves
  refine ⟨saves, hafter, fun place contents h => ?_, fun s hs => ?_⟩
  · rw [hafter] at h ⊢
    exact FileSystem.file_saveAll h
  · obtain ⟨r, mod, name, hr, hmod, hname, hpath⟩ := hpaths s hs
    refine ⟨r, mod, name, hr, hmod, hname, hpath, ?_⟩
    rw [hpath]
    exact under_output_iff r.output name

/-! ## A class that leaves the output directory -/

/-- An option takes the argument behind it for its value. -/
theorem gather_value {g g' : Gathered} {argument value : String} {rest : List String}
    {option : ValueOption} (hsplit : splitValue argument = (argument, none))
    (hoption : ValueOption.ofName? argument = some option) (hvalue : isOption value = false)
    (hg : g.withValue? option value = some g') :
    gather g (argument :: value :: rest) = gather g' rest := by
  have hnames : argument = "--mod" ∨ argument = "--mappings" ∨ argument = "--from" ∨
      argument = "--to" ∨ argument = "--output" := by
    unfold ValueOption.ofName? at hoption
    split at hoption <;> simp_all
  -- No name of an option is one of the words that stand for themselves.
  rcases hnames with rfl | rfl | rfl | rfl | rfl
  all_goals
    rw [gather, if_neg (by decide), if_neg (by decide), if_neg (by simp), if_neg (by simp),
      if_neg (by decide)]
    simp only [hsplit, hoption, hvalue, hg]
    rw [if_neg (by simp)]

/-- The class `tmp.A` in a directory `mod`, next to a directory `tmp`. -/
def unpacked : FileSystem :=
  (((FileSystem.empty.insert ["mod"] .directory).insert ["mod", "tmp"] .directory).insert
    ["mod", "tmp", "A.class"] (.file ClassTree.callingBytes)).insert ["tmp"] .directory

/-- The class is asked for with a slash in front of its name. -/
def rooted : Request where
  mod := "mod"
  mappings := none
  source := "intermediary"
  target := "named"
  development := false
  output := "out"
  classes := ["/tmp/A"]

/-- There are the mod with its one class, and an empty directory. -/
theorem node?_unpacked (place : Place) : unpacked.node? place =
    if ["tmp"] = place then some .directory
    else if ["mod", "tmp", "A.class"] = place then some (.file ClassTree.callingBytes)
    else if ["mod", "tmp"] = place then some .directory
    else if ["mod"] = place then some .directory
    else FileSystem.empty.node? place := by
  rw [unpacked, FileSystem.node?_insert _ _ _ _ (by decide),
    FileSystem.node?_insert _ _ _ _ (by decide),
    FileSystem.node?_insert _ _ _ _ (by decide), FileSystem.node?_insert _ _ _ _ (by decide)]

/-- There is no class in that directory. -/
theorem free_unpacked : unpacked.node? ["tmp", "A.class"] = none := by
  rw [node?_unpacked]
  simp [FileSystem.node?, FileSystem.empty]

/-- Names lead from the root, wherever a path starts, along directories. -/
theorem place_unpacked_of_spells {path : String} {names : Place}
    (hspells : FileSystem.Spells path names)
    (hdirectories : ∀ n < names.length, unpacked.node? (names.take n) = some .directory) :
    unpacked.place path = .ok names := by
  have horigin : unpacked.origin path = [] := by
    rw [FileSystem.origin]
    split <;> rfl
  rw [FileSystem.place_of_spells hspells, horigin, List.nil_append]
  rwa [horigin]

/-- The paths lead where one would expect. -/
theorem place_unpacked : unpacked.place "mod" = .ok ["mod"] ∧
    unpacked.place "/mod/tmp/A.class" = .ok ["mod", "tmp", "A.class"] ∧
    unpacked.place "/tmp" = .ok ["tmp"] ∧ unpacked.place "/tmp/A.class" = .ok ["tmp", "A.class"] := by
  refine ⟨place_unpacked_of_spells ⟨by decide, by decide, by decide⟩ ?_,
    place_unpacked_of_spells ⟨by decide, by decide, by decide⟩ ?_,
    place_unpacked_of_spells ⟨by decide, by decide, by decide⟩ ?_,
    place_unpacked_of_spells ⟨by decide, by decide, by decide⟩ ?_⟩
  · rintro (_ | n) hn
    · rfl
    · simp at hn
  · rintro (_ | _ | _ | n) hn
    · rfl
    · exact node?_unpacked _
    · exact node?_unpacked _
    · simp at hn
      omega
  · rintro (_ | n) hn
    · rfl
    · simp at hn
  · rintro (_ | _ | n) hn
    · rfl
    · exact node?_unpacked _
    · simp only [List.length_cons, List.length_nil] at hn
      omega

/-- The class of the mod can be found. -/
theorem find_unpacked : unpacked.find "/mod/tmp/A.class" =
    .ok (["mod", "tmp", "A.class"], .file ClassTree.callingBytes) :=
  FileSystem.find_eq_ok_iff.2 ⟨place_unpacked.2.1, node?_unpacked _⟩

/-- The mod can be opened. -/
theorem mod_unpacked : Mod.ofPath unpacked rooted.mod = .ok (.directory ⟨["mod"]⟩) := by
  have hfind : unpacked.find "mod" = .ok (["mod"], .directory) :=
    FileSystem.find_eq_ok_iff.2 ⟨place_unpacked.1, node?_unpacked _⟩
  show Mod.ofPath unpacked "mod" = _
  rw [Mod.ofPath, FileSystem.isDirectory, DirectorySource.ofPath, hfind]
  rfl

/-- The class can be read wherever a name leads to its file. -/
theorem class?_unpacked {name : ClassName}
    (hresolve : DirectorySource.resolve ⟨["mod"]⟩ name.filePath = some "/mod/tmp/A.class") :
    ModSource.class? unpacked (Mod.directory ⟨["mod"]⟩) name = some (.calling "m") := by
  have hhas : ModSource.has unpacked (Mod.directory ⟨["mod"]⟩) name.filePath = true := by
    show (DirectorySource.resolve ⟨["mod"]⟩ name.filePath).any unpacked.isFile = true
    rw [hresolve, Option.any_some, FileSystem.isFile, find_unpacked]
  have hread : (ModSource.read unpacked (Mod.directory ⟨["mod"]⟩) name.filePath).1 =
      .ok ClassTree.callingBytes := by
    simp only [ModSource.read, hresolve, FileSystem.read, find_unpacked]
    rfl
  exact ModSource.class?_eq_some_iff.2 ⟨hhas, _, hread, ClassTree.decode_calling⟩

/-- The class is saved at a path that has nothing to do with the output directory. -/
theorem files_rooted :
    (runRequest rooted unpacked).files =
      unpacked.insert ["tmp", "A.class"] (.file ClassTree.callingBytes) := by
  obtain ⟨settings, s, hprepare⟩ : ∃ settings s,
      (prepare rooted).run (unpacked, #[opening rooted]) = (.ok (settings, none), s) := ⟨_, _, rfl⟩
  have hdump : settings.dumpDirectory = none := by
    have hprepared := (prepares_prepare rooted (unpacked, #[opening rooted])).2
    rw [hprepare] at hprepared
    exact hprepared _ rfl
  have hnames : classNames rooted unpacked (.directory ⟨["mod"]⟩) = [.normalize "/tmp/A"] := rfl
  have hpath : Path.join "out" (ClassName.normalize "/tmp/A").filePath = "/tmp/A.class" := by decide
  have hparent : Path.parent? "/tmp/A.class" = some "/tmp" := by decide
  rw [files_runRequest_of_ready mod_unpacked hprepare, hnames]
  generalize hp :
    Provider.start settings (Mod.directory ⟨["mod"]⟩) (none : Option NameTable) unpacked
    s.2 = p
  have hshowing : p.showing? (.normalize "/tmp/A") = some (.calling "m") := by
    rw [← hp, Provider.showing?, if_neg (by simp [Provider.start])]
    exact class?_unpacked (by decide)
  have hencode : encode (p.served (.calling "m")) = .ok ClassTree.callingBytes := by
    rw [← hp]
    exact ClassTree.encode_calling_widen settings
  obtain ⟨q, hrun, -⟩ := Provider.run_classBytes_of_showing? hshowing hencode
  have houtputs : outputs "out" [.normalize "/tmp/A"] p =
      [⟨"/tmp/A.class", ClassTree.callingBytes⟩] := by
    have hsettings : p.settings.dumpDirectory = none := by rw [← hp]; exact hdump
    rw [outputs, Provider.puttings, Provider.mirrorings_of_none hsettings, hrun, hpath]
    simp only [outputs]
    split <;> rfl
  show unpacked.saveAll (outputs "out" _ p) = _
  rw [houtputs]
  obtain ⟨-, -, hdirectory, hplace⟩ := place_unpacked
  have hfree : unpacked.node? ["tmp", "A.class"] ≠ some .directory := by simp [free_unpacked]
  exact congrArg Prod.fst (FileSystem.save_of_directory hparent (by decide) hdirectory
    (node?_unpacked _) hplace hfree ClassTree.callingBytes)

/-- The class is written into the directory `tmp` at the root, which is not below `out`. -/
theorem written_outside :
    let arguments := ["--mod", "mod", "--output", "out", "/tmp/A"]
    let after := (run arguments unpacked "").files
    unpacked.node? ["tmp", "A.class"] = none ∧
      after.node? ["tmp", "A.class"] = some (.file ClassTree.callingBytes) ∧
      after.place "/tmp/A.class" = .ok ["tmp", "A.class"] ∧
      ¬ Path.Under "out" "/tmp/A.class" := by
  intro arguments after
  have hmod : Gathered.none.withValue? .mod "mod" = some ⟨[(.mod, "mod")], false, []⟩ := rfl
  have houtput : Gathered.withValue? ⟨[(.mod, "mod")], false, []⟩ .output "out" =
      some ⟨[(.output, "out"), (.mod, "mod")], false, []⟩ := rfl
  have harguments : Invocation.ofArguments arguments = .work rooted := by
    rw [Invocation.ofArguments, gather_value (by decide) (by decide) (by decide) hmod,
      gather_value (by decide) (by decide) (by decide) houtput, gather, if_neg (by decide),
      if_pos (by decide)]
    rfl
  have hafter : after = unpacked.insert ["tmp", "A.class"] (.file ClassTree.callingBytes) := by
    show (run arguments unpacked "").files = _
    rw [run, harguments]
    exact files_rooted
  have hgrows : FileSystem.Grows unpacked after := by
    rw [hafter]
    exact .insert (by simp [free_unpacked]) _
  refine ⟨free_unpacked, ?_, hgrows.place place_unpacked.2.2.2, fun h => ?_⟩
  · rw [hafter, FileSystem.node?_insert _ _ _ _ (by decide), if_pos rfl]
  · have habsolute := h.1
    revert habsolute
    decide

end Crosswalk.CommandLine
