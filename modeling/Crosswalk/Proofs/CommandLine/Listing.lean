import Mathlib.Data.List.Nodup
import Crosswalk.Proofs.CommandLine.Output
import Crosswalk.Proofs.Provider.Finding

/-!
# Which of the listed classes are written

A run that is not asked for single classes goes through all class files that the mod lists. Each is
looked for by the path of the file that its class should have, so it is written unless the mod has
no file there by then (`CommandLine.saved_of_runRequest`). That is another path than the listed one
if there is a dot in front of the ending (`CommandLine.listed_classes_found`).
-/

namespace Crosswalk

/-! ## Listing files -/

namespace FileSystem

variable {root : Place}

/-- What is listed of all there is are the files below the place. -/
theorem listed_iff {entry : Place × FileNode} {file : Place × Bytes} :
    (match entry.2, root.isPrefixOf? entry.1 with
      | .file contents, some names => some (names, contents)
      | _, _ => none) = some file ↔ entry = (root ++ file.1, .file file.2) := by
  constructor
  · obtain ⟨place, _ | held⟩ := entry <;> intro h
    · cases h
    · simp only at h
      split at h
      · next hnode hprefix =>
        cases h
        cases hnode
        rw [List.isPrefixOf?_eq_some_iff_append_eq.1 hprefix]
      · cases h
  · rintro rfl
    simp only
    rw [List.isPrefixOf?_eq_some_iff_append_eq.2 rfl]

/-- Just the files below a place are listed. -/
theorem mem_filesBelow_iff {fs : FileSystem} {file : Place × Bytes} :
    file ∈ fs.filesBelow root ↔ fs.nodes[root ++ file.1]? = some (.file file.2) := by
  rw [filesBelow, List.mem_mergeSort, List.mem_filterMap,
    ← Std.HashMap.mem_toList_iff_getElem?_eq_some]
  constructor
  · rintro ⟨entry, hmem, h⟩
    rwa [listed_iff.1 h] at hmem
  · exact fun hmem => ⟨_, hmem, listed_iff.2 rfl⟩

/-- Each file is listed once. -/
theorem nodup_filesBelow (fs : FileSystem) (root : Place) : (fs.filesBelow root).Nodup := by
  rw [filesBelow, (List.mergeSort_perm _ _).nodup_iff]
  have hnodes : fs.nodes.toList.Nodup := Std.HashMap.distinct_keys_toList.imp fun h heq => by
    simp [heq] at h
  exact hnodes.filterMap fun entry entry' file h h' => (listed_iff.1 h).trans (listed_iff.1 h').symm

end FileSystem

/-- Reading a mod does not change what is known about it. -/
theorem Mod.source_read (fs : FileSystem) (mod : Mod) (path : String) :
    (ModSource.read fs mod path).2 = mod := by
  cases mod with
  | directory s =>
    have hsame : (ModSource.read fs s path).2 = s := by
      simp only [ModSource.read]
      split <;> rfl
    exact congrArg Mod.directory hsame
  | archive s =>
    have hsame : (ModSource.read fs s path).2 = s := by
      simp only [ModSource.read]
      split <;> rfl
    exact congrArg Mod.archive hsame

namespace CommandLine

open FileSystem (Saving)

variable {p q : Provider Mod (Option NameTable)} {output : String} {name : ClassName}

/-! ## Writing classes -/

theorem source_transform (name : ClassName) (p : Provider Mod (Option NameTable)) :
    ((Provider.transform name).run p).2.source = p.source := by
  have htransforms := Provider.transforms name p
  generalize (Provider.transform name).run p = outcome at htransforms
  obtain ⟨r, q⟩ := outcome
  have hread := Mod.source_read p.files p.source name.filePath
  cases htransforms with
  | absent => rfl
  | unreadable log hhas hfault => rw [← hread, hfault]
  | malformed log hhas hraw | overflow log hhas hraw | ready log files hhas hraw =>
    rw [← hread, hraw]

theorem source_classBytes (name : ClassName) (p : Provider Mod (Option NameTable)) :
    ((Provider.classBytes name).run p).2.source = p.source := by
  have hmade := source_transform name p
  have hlooks := Provider.Shelf.looks_lookup .ready name (Provider.transform name) p
  rw [Provider.classBytes_eq]
  generalize (Provider.Shelf.lookup _ _ _).run p = outcome at hlooks
  obtain ⟨r, q⟩ := outcome
  cases hlooks with
  | kept => rfl
  | made hitem hmake | missed hitem hmake => rwa [hmake] at hmade

/-- Writing a class does not change the mod. -/
theorem source_writeClass (output : String) (name : ClassName)
    (p : Provider Mod (Option NameTable)) :
    ((writeClass output name).run p).2.source = p.source := by
  have hfail : ∀ (saved : Except FileFault Unit) (q : Provider Mod (Option NameTable)),
      ((Provider.orFail (fun fault => .source (.file fault)) saved).run q).2 = q := by
    rintro (fault | _) q <;> rfl
  refine (Provider.view_run_bind Provider.source _ (fun contents q => ?_) p).trans
    (source_classBytes name p)
  cases contents with
  | none => rfl
  | some contents =>
    simp only
    rw [Provider.run_bind_ok (Provider.run_report ..),
      Provider.run_bind_ok (Provider.run_trySave ..),
      hfail]

/-- A class that is ready is written if it can be saved. -/
theorem run_writeClass_of_saved {contents : Bytes} {first : Provider Mod (Option NameTable)}
    (hbytes : (Provider.classBytes name).run p = (.ok (some contents), first))
    (hsave : (first.files.save (Path.join output name.filePath) contents).2 = .ok ()) :
    ∃ q, (writeClass output name).run p = (.ok (), q) := by
  rw [writeClass, Provider.run_bind_ok hbytes]
  simp only
  rw [Provider.run_bind_ok (Provider.run_report ..), Provider.run_bind_ok (Provider.run_trySave ..),
    hsave]
  exact ⟨_, rfl⟩

/-- Writing a class makes no other class ready. -/
theorem not_mem_classes_writeClass {other : ClassName} (hne : name ≠ other)
    (hfresh : name ∉ p.classes) : name ∉ ((writeClass output other).run p).2.classes := by
  have hclasses : ((writeClass output other).run p).2.classes =
      ((Provider.classBytes other).run p).2.classes := by
    refine Provider.view_run_bind Provider.classes _ (fun contents q => ?_) p
    cases contents with
    | none => rfl
    | some contents =>
      simp only
      rw [Provider.run_bind_ok (Provider.run_report ..),
        Provider.run_bind_ok (Provider.run_trySave ..)]
      generalize FileSystem.save _ _ _ = outcome
      obtain ⟨files, fault | _⟩ := outcome <;> rfl
  rw [hclasses]
  have hlooks := Provider.looks other p
  generalize (Provider.classBytes other).run p = outcome at hlooks
  obtain ⟨r, q⟩ := outcome
  cases hlooks with
  | idle hshowing haside => rwa [haside.classes]
  | overflow hshowing hencode haside => rwa [haside.classes]
  | ready hshowing hencode haside =>
    rw [haside.classes, Std.HashMap.mem_insert]
    simpa [Ne.symm hne] using hfresh

/-- The bytes are those of the class that the mod has when its turn comes first among the names, as
it is served then. -/
def MadeInTurn (output : String) (names : List ClassName) (p : Provider Mod (Option NameTable))
    (name : ClassName) (contents : Bytes) : Prop :=
  ∃ done q c, done ++ [name] <+: names ∧ (done.forM (writeClass output)).run p = (.ok (), q) ∧
    q.showing? name = some c ∧ encode (q.served c) = .ok contents

/-- The turn of a class that is not the first one comes after the first one has been written. -/
theorem MadeInTurn.cons {names : List ClassName} {first : ClassName} {contents : Bytes}
    (hrun : (writeClass output first).run p = (.ok (), q))
    (h : MadeInTurn output names q name contents) :
    MadeInTurn output (first :: names) p name contents := by
  obtain ⟨done, last, c, hdone, hruns, hmade⟩ := h
  refine ⟨first :: done, last, c, (List.prefix_cons_inj first).2 hdone, ?_, hmade⟩
  exact (Provider.run_bind_ok hrun).trans hruns

/-- A class that is written and was not ready has been saved as it is served, unless the mod does
not have its file. -/
theorem saved_of_writeClass (hfresh : name ∉ p.classes)
    (h : (writeClass output name).run p = (.ok (), q)) :
    (∃ contents, ⟨Path.join output name.filePath, contents⟩ ∈
        p.puttings name (Path.join output name.filePath) ∧
      ∃ c, p.showing? name = some c ∧ encode (p.served c) = .ok contents) ∨
    ModSource.has p.files p.source name.filePath = false := by
  have hlooks := Provider.looks name p
  rcases hrun : (Provider.classBytes name).run p with ⟨e | _ | contents, first⟩
  · rw [writeClass, Provider.run_bind_error hrun] at h
    cases h
  · exact .inr (Provider.classBytes_eq_none_iff.1 (congrArg Prod.fst hrun)).2
  · refine .inl ⟨contents, ?_, ?_⟩
    · rw [Provider.puttings, hrun]
      exact List.mem_append_right _ (List.mem_singleton.2 rfl)
    · rw [hrun] at hlooks
      cases hlooks with
      | idle hshowing haside hready =>
        have hkept := hready contents rfl
        rw [Std.HashMap.getElem?_eq_none hfresh] at hkept
        cases hkept
      | ready hshowing hencode => exact ⟨_, hshowing, hencode⟩

/-- Where classes are written one after the other and none fails, each that was not ready has been
saved as it is served, unless the mod does not have its file when its turn comes. -/
theorem saved_of_forM {names : List ClassName} (hmem : name ∈ names) (hfresh : name ∉ p.classes)
    (h : (names.forM (writeClass output)).run p = (.ok (), q)) :
    (∃ contents, ⟨Path.join output name.filePath, contents⟩ ∈ outputs output names p ∧
      MadeInTurn output names p name contents) ∨
    ∃ before, before <+: outputs output names p ∧
      ModSource.has (p.files.saveAll before) p.source name.filePath = false := by
  induction names generalizing p with
  | nil => cases hmem
  | cons first rest ih =>
    change (writeClass output first >>= fun _ => rest.forM (writeClass output)).run p = _ at h
    have hsaves := (saves_writeClass output first p).files
    have hsource := source_writeClass output first p
    rw [outputs]
    rcases hrun : (writeClass output first).run p with ⟨e | _, next⟩
    · rw [Provider.run_bind_error hrun] at h
      cases h
    · rw [Provider.run_bind_ok hrun] at h
      rw [hrun] at hsaves hsource
      by_cases hname : name = first
      · subst hname
        rcases saved_of_writeClass hfresh hrun with ⟨contents, hsaved, c, hmade⟩ | hmissing
        · refine .inl ⟨contents, List.mem_append_left _ hsaved, [], p, c, ?_, rfl, hmade⟩
          exact (List.prefix_cons_inj name).2 List.nil_prefix
        · exact .inr ⟨[], List.nil_prefix, hmissing⟩
      · have hlater : name ∉ ((writeClass output first).run p).2.classes :=
          not_mem_classes_writeClass hname hfresh
        rw [hrun] at hlater
        rcases ih (List.mem_of_ne_of_mem hname hmem) hlater h with
          ⟨contents, hsaved, hmade⟩ | ⟨before, hbefore, hmissing⟩
        · exact .inl ⟨contents, List.mem_append_right _ hsaved, hmade.cons hrun⟩
        · refine .inr ⟨_, (List.prefix_append_right_inj _).2 hbefore, ?_⟩
          rw [FileSystem.saveAll_append, ← hsaves, ← hsource]
          exact hmissing

/-! ## Runs -/

/-- A request ends with code 0 exactly if it has done its work. -/
theorem exitCode_eq_zero_iff {r : Request} {files : FileSystem} :
    (runRequest r files).exitCode = 0 ↔
      ∃ candidates, ((work r).run (files, #[])).1 = .ok candidates := by
  rw [runRequest]
  change _ ↔ ∃ candidates, ((ExceptT.run (work r)).run (files, #[])).1 = .ok candidates
  rcases (ExceptT.run (work r)).run (files, #[]) with ⟨e | candidates, s⟩
  · simp
  · exact iff_of_true rfl ⟨candidates, rfl⟩

/-- A step of a provider is done within a run exactly if the provider can do it. -/
theorem serve_eq_ok_iff {α σ ρ : Type} {provider : Provider σ ρ} {step : Serving σ ρ α}
    {s : FileSystem × Array Record} :
    (∃ candidates, ((serve provider step).run s).1 = .ok candidates) ↔
      ∃ a q, step.run provider = (.ok a, q) := by
  rw [serve]
  change _ ↔ ∃ a q, (ExceptT.run step).run provider = (.ok a, q)
  rcases (ExceptT.run step).run provider with ⟨e | a, q⟩
  · refine iff_of_false ?_ ?_
    · rintro ⟨candidates, h⟩
      have hfailed : (.error e : Except ServeFault Candidates) = .ok candidates := h
      cases hfailed
    · rintro ⟨a, q', h⟩
      cases h
  · exact iff_of_true ⟨_, rfl⟩ ⟨a, q, rfl⟩

/-- Once the mod is open and all is prepared, a request ends with code 0 exactly if the classes can
be written. -/
theorem exitCode_eq_zero_iff_of_ready {r : Request} {mod : Mod} {files : FileSystem}
    {settings : Settings} {table : Option NameTable} {s : FileSystem × Array Record}
    (hmod : Mod.ofPath files r.mod = .ok mod)
    (hprepare : (prepare r).run (files, #[opening r]) = (.ok (settings, table), s)) :
    (runRequest r files).exitCode = 0 ↔ ∃ q,
      ((classNames r s.1 mod).forM (writeClass r.output)).run (.start settings mod table s.1 s.2) =
        (.ok (), q) := by
  rw [exitCode_eq_zero_iff, run_work, hmod]
  simp only [hprepare]
  rw [serve_eq_ok_iff]
  exact ⟨fun ⟨_, q, h⟩ => ⟨q, h⟩, fun ⟨q, h⟩ => ⟨(), q, h⟩⟩

/-- The provider that a request starts with: it has the mod, and what the request has prepared. -/
def Starts (r : Request) (files : FileSystem) (mod : Mod) (p : Provider Mod (Option NameTable)) :
    Prop :=
  ∃ settings table log,
    (prepare r).run (files, #[opening r]) = (.ok (settings, table), (files, log)) ∧
      p = .start settings mod table files log

/-- A request that ends with code 0 has opened its mod, and saved each class that it is about as it
is served when its turn comes, unless the mod does not have the file of the class by then. -/
theorem saved_of_runRequest {r : Request} {mod : Mod} {files : FileSystem}
    (hmod : Mod.ofPath files r.mod = .ok mod) (hexit : (runRequest r files).exitCode = 0) :
    ∃ first saves, Starts r files mod first ∧ (runRequest r files).files = files.saveAll saves ∧
      ∀ name ∈ classNames r files mod,
        (∃ contents, ⟨Path.join r.output name.filePath, contents⟩ ∈ saves ∧
          MadeInTurn r.output (classNames r files mod) first name contents) ∨
        ∃ before, before <+: saves ∧
          ModSource.has (files.saveAll before) mod name.filePath = false := by
  have hprepares := (prepares_prepare r (files, #[opening r])).1
  rcases hprepare : (prepare r).run (files, #[opening r]) with ⟨e | ⟨settings, table⟩, s, log⟩
  · obtain ⟨candidates, hwork⟩ := exitCode_eq_zero_iff.1 hexit
    rw [run_work, hmod] at hwork
    simp only [hprepare] at hwork
    cases hwork
  · obtain ⟨q, hrun⟩ := (exitCode_eq_zero_iff_of_ready hmod hprepare).1 hexit
    rw [hprepare] at hprepares
    simp only at hprepares
    subst hprepares
    refine ⟨_, _, ⟨settings, table, log, hprepare, rfl⟩, files_runRequest_of_ready hmod hprepare,
      fun name hname => saved_of_forM hname (by simp [Provider.start]) hrun⟩

/-- The class files that a mod lists are all found, and written as they are served by a run for all
of them that does not fail, as far as the mod has files at the paths of their classes. These are the
paths that the mod lists, except where there is a dot in front of the ending. -/
theorem listed_classes_found {σ ρ : Type} [ModSource σ] [Renamer ρ] :
    (∀ stem, stem ≠ "" →
      ClassName.ofFilePath? (stem ++ ClassName.fileEnding) = some (.normalize stem) ∧
      ((ClassName.normalize stem).filePath = stem ++ ClassName.fileEnding ↔ '.' ∉ stem.toList)) ∧
    (∀ (p : Provider σ ρ) (path : String), ModSource.has p.files p.source path = true →
      (((Provider.resource path).run p).1 = .ok none ↔
        ∃ stem, path = stem ++ ClassName.fileEnding ∧ '.' ∈ stem.toList ∧
          ClassName.normalize stem ∉ p.materialized ∧ ClassName.normalize stem ∉ p.classes ∧
          ModSource.has p.files p.source (ClassName.normalize stem).filePath = false)) ∧
    ∀ (r : Request) (files : FileSystem) (mod : Mod), r.classes = [] →
      Mod.ofPath files r.mod = .ok mod → (runRequest r files).exitCode = 0 →
      ∃ first saves, Starts r files mod first ∧ (runRequest r files).files = files.saveAll saves ∧
        ∀ path ∈ ModSource.entries files mod, ∀ name, ClassName.ofFilePath? path = some name →
          (∃ contents, ⟨Path.join r.output name.filePath, contents⟩ ∈ saves ∧
            MadeInTurn r.output (classNames r files mod) first name contents) ∨
          ∃ before, before <+: saves ∧
            ModSource.has (files.saveAll before) mod name.filePath = false := by
  refine ⟨fun stem hne => ⟨?_, ClassName.filePath_normalize_iff⟩,
    fun p path => Provider.resource_eq_none_iff, fun r files mod hall hmod hexit => ?_⟩
  · exact ClassName.ofFilePath?_eq_some_iff.2 ⟨stem, hne, rfl, rfl⟩
  · obtain ⟨first, saves, hfirst, hfiles, hsaved⟩ := saved_of_runRequest hmod hexit
    refine ⟨first, saves, hfirst, hfiles, fun path hpath name hname => hsaved name ?_⟩
    simp only [classNames, hall, List.isEmpty_nil, if_true]
    exact List.mem_filterMap.2 ⟨path, hpath, hname⟩

/-- What the mod `mod` lists. -/
theorem entries_unpacked :
    ModSource.entries unpacked (Mod.directory ⟨["mod"]⟩) = ["tmp/A.class"] := by
  have hfiles : unpacked.filesBelow ["mod"] = [(["tmp", "A.class"], ClassTree.callingBytes)] := by
    refine List.Perm.eq_singleton ?_
    refine (List.perm_ext_iff_of_nodup (FileSystem.nodup_filesBelow _ _)
      (List.nodup_singleton _)).2 fun ⟨names, contents⟩ => ?_
    have hnode := node?_unpacked (["mod"] ++ names)
    simp only [FileSystem.node?, List.cons_append, List.nil_append, reduceCtorEq, if_false,
      List.cons.injEq, String.reduceEq, false_and, true_and, FileSystem.empty,
      Std.HashMap.not_mem_empty, not_false_eq_true, getElem?_neg] at hnode
    simp only [FileSystem.mem_filesBelow_iff, List.mem_singleton, Prod.mk.injEq,
      List.singleton_append,
      hnode]
    by_cases hnames : ["tmp", "A.class"] = names
    · simp [← hnames, eq_comm]
    · have hne : names ≠ ["tmp", "A.class"] := fun h => hnames h.symm
      rw [if_neg hnames]
      split_ifs <;> simp [hne]
  show (unpacked.filesBelow ["mod"]).map _ = _
  rw [hfiles]
  decide

/-- The mod has the class, which keeps its bytes where there are no mappings. -/
theorem served_unpacked (settings : Settings) (log : Array Record) :
    let p : Provider Mod (Option NameTable) :=
      .start settings (Mod.directory ⟨["mod"]⟩) none unpacked log
    p.showing? (.normalize "tmp/A") = some (.calling "m") ∧
      encode (p.served (.calling "m")) = .ok ClassTree.callingBytes := by
  intro p
  have hfresh : ClassName.normalize "tmp/A" ∉ p.classes := by simp [p, Provider.start]
  refine ⟨?_, ClassTree.encode_calling_widen settings⟩
  rw [Provider.showing?, if_neg hfresh]
  exact class?_unpacked (by decide)

/-- The class can be written over itself. -/
theorem run_unpacked {settings : Settings} (hdump : settings.dumpDirectory = none)
    (log : Array Record) : ∃ q, (writeClass "/mod" (.normalize "tmp/A")).run
      (.start settings (Mod.directory ⟨["mod"]⟩) none unpacked log) = (.ok (), q) := by
  have hpath : (ClassName.normalize "tmp/A").filePath = "tmp/A.class" ∧
      Path.join "/mod" "tmp/A.class" = "/mod/tmp/A.class" := by decide
  obtain ⟨hshowing, hencode⟩ := served_unpacked settings log
  generalize hp :
    Provider.start settings (Mod.directory ⟨["mod"]⟩) (none : Option NameTable) unpacked
    log = p at hshowing hencode ⊢
  obtain ⟨first, hrun, -⟩ := Provider.run_classBytes_of_showing? hshowing hencode
  have hfiles : first.files = unpacked := by
    have hsaves := (Provider.saves_classBytes (.normalize "tmp/A") p).files
    rwa [hrun, Provider.mirrorings_of_none (by rw [← hp]; exact hdump), ← hp] at hsaves
  have hparent : Path.parent? "/mod/tmp/A.class" = some "/mod/tmp" := by decide
  have hdirectory : unpacked.place "/mod/tmp" = .ok ["mod", "tmp"] := by
    refine place_unpacked_of_spells ⟨by decide, by decide, by decide⟩ ?_
    rintro (_ | _ | n) hn
    · rfl
    · exact node?_unpacked _
    · simp only [List.length_cons, List.length_nil] at hn
      omega
  have hnode : unpacked.node? ["mod", "tmp", "A.class"] ≠ some .directory := by
    simp [node?_unpacked]
  refine run_writeClass_of_saved hrun ?_
  rw [hfiles, hpath.1, hpath.2]
  exact congrArg Prod.snd (FileSystem.save_of_directory hparent (by decide) hdirectory
    (node?_unpacked _) place_unpacked.2.1 hnode ClassTree.callingBytes)

/-- A run for all classes writes the class over itself. -/
theorem listed_classes_found_unpacked :
    let r : Request := { rooted with output := "/mod", classes := [] }
    let after := runRequest r unpacked
    "tmp/A.class" ∈ ModSource.entries unpacked (Mod.directory ⟨["mod"]⟩) ∧ after.exitCode = 0 ∧
      ∃ saves, after.files = unpacked.saveAll saves ∧
        ⟨"/mod/tmp/A.class", ClassTree.callingBytes⟩ ∈ saves := by
  intro r after
  have hmod : Mod.ofPath unpacked r.mod = .ok (.directory ⟨["mod"]⟩) := mod_unpacked
  have hname : ClassName.ofFilePath? "tmp/A.class" = some (.normalize "tmp/A") ∧
      (ClassName.normalize "tmp/A").filePath = "tmp/A.class" ∧
      Path.join "/mod" "tmp/A.class" = "/mod/tmp/A.class" := by decide
  have hresolve : DirectorySource.resolve ⟨["mod"]⟩ "tmp/A.class" = some "/mod/tmp/A.class" := by
    decide
  have hlisted : "tmp/A.class" ∈ ModSource.entries unpacked (Mod.directory ⟨["mod"]⟩) := by
    rw [entries_unpacked]
    exact List.mem_singleton.2 rfl
  obtain ⟨settings, log, hprepare⟩ : ∃ settings log,
      (prepare r).run (unpacked, #[opening r]) = (.ok (settings, none), (unpacked, log)) :=
    ⟨_, _, rfl⟩
  have hnames : classNames r unpacked (.directory ⟨["mod"]⟩) = [.normalize "tmp/A"] := by
    show (ModSource.entries unpacked (Mod.directory ⟨["mod"]⟩)).filterMap _ = _
    rw [entries_unpacked]
    simp [hname.1]
  have hexit : after.exitCode = 0 := by
    have hdump : settings.dumpDirectory = none := by
      have hprepared := (prepares_prepare r (unpacked, #[opening r])).2
      rw [hprepare] at hprepared
      exact hprepared _ rfl
    obtain ⟨q, hrun⟩ := run_unpacked hdump log
    rw [exitCode_eq_zero_iff_of_ready hmod hprepare, hnames]
    exact ⟨q, (Provider.run_bind_ok hrun).trans rfl⟩
  obtain ⟨first, saves, ⟨settings, table, log, hprepared, rfl⟩, hfiles, hsaved⟩ :=
    (listed_classes_found (σ := Mod) (ρ := NameTable)).2.2 r unpacked _ rfl hmod hexit
  obtain rfl : none = table := by
    rw [hprepare] at hprepared
    cases hprepared
    rfl
  rcases hsaved _ hlisted _ hname.1 with ⟨contents, hmem, done, q, c, hdone, hruns, hmade⟩ |
    ⟨before, -, hmissing⟩
  · -- There is nothing in front of the one class.
    obtain rfl : done = [] := by
      have hlength := hdone.length_le
      rw [hnames, List.length_append] at hlength
      simpa using hlength
    cases hruns
    obtain ⟨hshowing, hencode⟩ := served_unpacked settings log
    cases hshowing.symm.trans hmade.1
    cases hencode.symm.trans hmade.2
    rw [hname.2.1, hname.2.2] at hmem
    exact ⟨hlisted, hexit, saves, hfiles, hmem⟩
  · -- A file that is there stays while others are saved.
    change (DirectorySource.resolve ⟨["mod"]⟩ _).any _ = false at hmissing
    rw [hname.2.1, hresolve, Option.any_some, FileSystem.isFile,
      FileSystem.find_saveAll find_unpacked before] at hmissing
    cases hmissing

/-- A mod with a class file in a directory that has a dot in its name. -/
def dotted : Provider MemorySource (Option NameTable) :=
  .start { Settings.standard "tmp" with dumpDirectory := none }
    ⟨[("a.b/C.class", ClassTree.callingBytes)]⟩ none .empty #[]

/-- The mod has the file and lists it, and the file is not found as a resource, because the class
that it is taken for has its file at another path. -/
theorem listed_class_missed :
    ModSource.has dotted.files dotted.source "a.b/C.class" = true ∧
      "a.b/C.class" ∈ ModSource.entries dotted.files dotted.source ∧
      (ClassName.ofFilePath? "a.b/C.class").map ClassName.filePath = some "a/b/C.class" ∧
      ((Provider.resource "a.b/C.class").run dotted).1 = .ok none := by
  have hhas : ModSource.has dotted.files dotted.source "a.b/C.class" = true := by decide
  refine ⟨hhas, List.mem_singleton.2 rfl, by decide, (Provider.resource_eq_none_iff hhas).2 ?_⟩
  exact ⟨"a.b/C", by decide, by decide, by simp [dotted, Provider.start], by
    simp [dotted, Provider.start], by decide⟩

end CommandLine

end Crosswalk
