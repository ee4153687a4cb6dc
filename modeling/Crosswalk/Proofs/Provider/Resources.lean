import Crosswalk.Proofs.Provider.Keeping
import Crosswalk.Proofs.Provider.Saves

/-!
# Files of classes

A class that is served as a resource is put into a file once, and the file then holds its bytes
(`Provider.holds_of_resource`). Classes are told apart by their names, but files by what is left of
the names once empty segments are dropped, so two classes can get the same file. What a file holds
later is what was saved into it last (`Provider.resource_holds_last`), be it for the class itself,
for another one of the same file, or as a mirror in the dump directory.
-/

namespace Crosswalk

open FileSystem (Saving)

namespace Provider

variable {σ ρ : Type} [ModSource σ] [Renamer ρ] {p q : Provider σ ρ} {name : ClassName}

/-! ## The first file of a class -/

/-- A class that has no file yet is made and put in place. -/
theorem run_classResource_of_missing (hfresh : name ∉ p.materialized) :
    (classResource name).run p =
    (classBytes name >>= place name >>= Shelf.placed.keep name).run p := by
  have hitem : p.materialized[name]? = none := (getElem?_eq_none_iff _ _).2 hfresh
  rw [classResource_eq_lookup]
  exact Shelf.run_lookup_of_missing (s := Shelf.placed) hitem

/-- Putting a class into a file changes the classes only by looking the class up. -/
theorem classes_classResource (hfresh : name ∉ p.materialized) :
    ((classResource name).run p).2.classes = ((classBytes name).run p).2.classes := by
  rw [run_classResource_of_missing hfresh]
  refine (view_run_bind Provider.classes _ (fun made q => ?_) p).trans
    (view_run_bind Provider.classes _ (fun contents q => ?_) p)
  · cases made <;> rfl
  · obtain ⟨r, files, log, hrun, -⟩ := run_place name contents q
    rw [hrun]

/-- A class whose bytes are answered is ready. -/
theorem classes_of_classBytes {contents : Bytes}
    (h : ((classBytes name).run p).1 = .ok (some contents)) :
    ((classBytes name).run p).2.classes[name]? = some contents := by
  rw [classBytes_eq] at h ⊢
  exact Shelf.kept_of_lookup h

omit [ModSource σ] [Renamer ρ] in
/-- A class that is put into a file is answered with the location of the file, unless the save
fails. -/
theorem run_place_some {contents : Bytes} {path : String} {files : FileSystem}
    {saved : Except FileFault Unit}
    (hpath : Path.below p.settings.tempDirectory name.filePath = path)
    (hsave : p.files.save path contents = (files, saved)) :
    (∃ log, saved = .ok () ∧ (place name (some contents)).run p =
      (.ok (some (.ofPath (FileSystem.absolutePath files.workingDirectory) path)),
        { p with files, log })) ∨
    ∃ fault, saved = .error fault ∧ (place name (some contents)).run p =
      (.error (.source (.file fault)), { p with files }) := by
  rw [place, run_bind_ok (run_get p)]
  simp only [hpath]
  rw [run_bind_ok (run_trySave ..), hsave]
  cases saved with
  | ok _ =>
    rw [run_bind_ok (run_orFail_ok ..), run_bind_ok (run_report ..)]
    exact .inl ⟨_, rfl, rfl⟩
  | error fault => exact .inr ⟨fault, rfl, run_bind_error (run_orFail_error ..)⟩

/-- A class that has no file is answered as a resource if its bytes are and can be saved. -/
theorem run_classResource_of_saved {first : Provider σ ρ} {contents : Bytes} {path : String}
    {files : FileSystem} (hfresh : name ∉ p.materialized)
    (hbytes : (classBytes name).run p = (.ok (some contents), first))
    (hpath : Path.below first.settings.tempDirectory name.filePath = path)
    (hsave : first.files.save path contents = (files, .ok ())) :
    let location := Location.ofPath (FileSystem.absolutePath files.workingDirectory) path
    ∃ log, (classResource name).run p = (.ok (some location),
      { first with files, log, materialized := first.materialized.insert name location }) := by
  intro location
  rw [run_classResource_of_missing hfresh, bind_assoc, run_bind_ok hbytes]
  rcases run_place_some hpath hsave with ⟨log, -, hplace⟩ | ⟨fault, hfault, -⟩
  · rw [run_bind_ok hplace]
    exact ⟨log, rfl⟩
  · cases hfault

/-- A class that is answered as a resource for the first time has its bytes in its file. -/
theorem holds_of_resource {location : Location} {target : String} (hfresh : name ∉ p.materialized)
    (hpath : Path.below p.settings.tempDirectory name.filePath = target)
    (hrun : (classResource name).run p = (.ok (some location), q)) :
    location = .ofPath (FileSystem.absolutePath q.files.workingDirectory) target ∧
      name ∈ q.materialized ∧ ∃ contents place, q.classes[name]? = some contents ∧
        q.files.find target = .ok (place, .file contents) := by
  have hready : ∀ contents, ((classBytes name).run p).1 = .ok (some contents) →
      ((classBytes name).run p).2.classes[name]? = some contents := fun _ => classes_of_classBytes
  have hsettings := (saves_classBytes name p).settings
  rcases hlookup : (classBytes name).run p with ⟨e | _ | contents, first⟩
  · rw [run_classResource_of_missing hfresh, bind_assoc, run_bind_error hlookup] at hrun
    cases hrun
  · rw [run_classResource_of_missing hfresh, bind_assoc, run_bind_ok hlookup] at hrun
    cases hrun
  · rw [hlookup] at hready hsettings
    rw [← hsettings] at hpath
    rcases hsave : first.files.save target contents with ⟨files, saved⟩
    rcases run_place_some hpath hsave with ⟨-, rfl, -⟩ | ⟨fault, -, hplace⟩
    · obtain ⟨log, hsame⟩ := run_classResource_of_saved hfresh hlookup hpath hsave
      obtain ⟨place, hlanding⟩ := FileSystem.exists_landing (congrArg Prod.snd hsave)
      have hfind := FileSystem.find_of_landing hlanding contents
      rw [hsave] at hfind
      cases hsame.symm.trans hrun
      exact ⟨rfl, Std.HashMap.mem_insert_self, contents, place, hready contents rfl, hfind⟩
    · rw [run_classResource_of_missing hfresh, bind_assoc, run_bind_ok hlookup,
        run_bind_error hplace] at hrun
      cases hrun

/-! ## What is saved -/

/-- The path is that of a mirror in the dump directory. -/
def IsMirror (settings : Settings) (path : String) : Prop :=
  ∃ directory kind name, settings.dumpDirectory = some directory ∧
    path = Path.below (Path.join directory kind) name

omit [ModSource σ] [Renamer ρ] in
/-- What is saved for a kind is a mirror in the part of the dump directory for it. -/
theorem exists_of_mem_mirror {settings : Settings} {kind path : String}
    {contents : Bytes} {s : Saving}
    (h : s ∈ mirror settings kind path contents) : ∃ directory,
      settings.dumpDirectory = some directory ∧
      s.path = Path.below (Path.join directory kind) path := by
  rw [mirror] at h
  split at h
  · cases h
  · next directory hdump =>
    obtain rfl := List.mem_singleton.1 h
    exact ⟨directory, hdump, rfl⟩

/-- A copy of a class has some contents. -/
theorem exists_of_mem_mirrorings {s : Saving} (h : s ∈ p.mirrorings name) :
    ∃ contents, s ∈ mirror p.settings "class" name.filePath contents := by
  rw [mirrorings] at h
  split at h
  · cases h
  · rw [mirrored.eq_def] at h
    split at h
    · exact ⟨_, h⟩
    · cases h

omit [Renamer ρ] in

/-- A copy of another file has some contents. -/
theorem exists_of_mem_copies {path : String} {s : Saving} (h : s ∈ p.copies path) :
    ∃ contents, s ∈ mirror p.settings "resource" path contents := by
  rw [copies] at h
  split at h
  · split at h
    · exact ⟨_, h⟩
    · cases h
  · cases h

/-- For a class that is served as a resource a mirror is saved, or its bytes are put into its file.
-/
theorem mem_placings {s : Saving} (h : s ∈ p.placings name) : s ∈ p.mirrorings name ∨
    name ∉ p.materialized ∧ s.path = Path.below p.settings.tempDirectory name.filePath ∧
      ((classBytes name).run p).1 = .ok (some s.contents) := by
  rw [placings] at h
  split at h
  · cases h
  · next hfresh =>
    rcases List.mem_append.1 h with h | h
    · exact .inl h
    · split at h
      · next hanswer =>
        obtain rfl := List.mem_singleton.1 h
        exact .inr ⟨hfresh, rfl, hanswer⟩
      · cases h

/-- Copies of classes are copies. -/
theorem isMirror_of_mem_mirrorings {s : Saving} (h : s ∈ p.mirrorings name) :
    IsMirror p.settings s.path := by
  obtain ⟨contents, h⟩ := exists_of_mem_mirrorings h
  obtain ⟨directory, hdump, hpath⟩ := exists_of_mem_mirror h
  exact ⟨directory, "class", name.filePath, hdump, hpath⟩

omit [Renamer ρ] in
theorem isMirror_of_mem_copies {path : String} {s : Saving} (h : s ∈ p.copies path) :
    IsMirror p.settings s.path := by
  obtain ⟨contents, h⟩ := exists_of_mem_copies h
  obtain ⟨directory, hdump, hpath⟩ := exists_of_mem_mirror h
  exact ⟨directory, "resource", path, hdump, hpath⟩

end Provider

open Provider

variable {σ ρ : Type} [ModSource σ] [Renamer ρ]

/-- Whatever a request saves is a mirror, or the file of a class that has none yet, with the bytes
of that class. -/
theorem Request.mem_saves {request : Request} {p : Provider σ ρ} {s : Saving}
    (h : s ∈ request.saves p) : IsMirror p.settings s.path ∨ ∃ name, name ∉ p.materialized ∧
      s.path = Path.below p.settings.tempDirectory name.filePath ∧
      (request.after p).classes[name]? = some s.contents := by
  cases request with
  | classBytes name | classTree name => exact .inl (isMirror_of_mem_mirrorings h)
  | resource path =>
    rw [after_resource, Provider.resource]
    rw [saves] at h
    cases hpath : ClassName.ofFilePath? path with
    | none =>
      rw [hpath] at h
      exact .inl (isMirror_of_mem_copies h)
    | some name =>
      rw [hpath] at h
      rcases mem_placings h with h | ⟨hfresh, htarget, hanswer⟩
      · exact .inl (isMirror_of_mem_mirrorings h)
      · refine .inr ⟨name, hfresh, htarget, ?_⟩
        simp only
        rw [classes_classResource hfresh]
        exact classes_of_classBytes hanswer

/-! ## Runs -/

/-- The file of a class is not given up. -/
theorem Request.materialized_after (request : Request) {p : Provider σ ρ} {name : ClassName}
    (h : name ∈ p.materialized) : name ∈ (request.after p).materialized := by
  -- Only the request of a resource may add the file of a class, beside those that are there.
  cases request with
  | classBytes other =>
    rw [after_classBytes, (keeps_classBytes other p).2]
    exact h
  | classTree other =>
    rw [after_classTree, (keeps_classBytes other p).2]
    exact h
  | resource path =>
    rw [after_resource, Provider.resource]
    cases ClassName.ofFilePath? path with
    | none =>
      obtain ⟨r, source, files, log, hrun⟩ := run_plainResource path p
      simp only [hrun]
      exact h
    | some other =>
      have hlooks :=
        Shelf.looks_lookup Shelf.placed other (Provider.classBytes other >>= place other) p
      obtain ⟨-, hsame, -⟩ := keeps_place other p
      simp only
      rw [classResource_eq_lookup]
      generalize (Shelf.placed.lookup other _).run p = outcome at hlooks
      obtain ⟨r, q⟩ := outcome
      cases hlooks with
      | kept => exact h
      | made hitem hrun =>
        rw [hrun] at hsame
        exact Std.HashMap.mem_insert.2 (.inr ((congrArg (name ∈ ·) hsame).mpr h))
      | missed hitem hrun =>
        rw [hrun] at hsame
        exact (congrArg (name ∈ ·) hsame).mpr h

namespace Event

variable {p : Provider σ ρ} {base path : String} {place : Place} {held : Bytes}

/-- What an event saves. -/
def saves : Event σ → Provider σ ρ → List Saving
  | asked request, p => request.saves p
  | changed _ _, _ => []

/-- What events save at a place, in order. -/
def landings (place : Place) : List (Event σ) → Provider σ ρ → List Saving
  | [], _ => []
  | event :: rest, p =>
    p.files.landed place (event.saves p) ++ landings place rest (event.after p)

/-- Only requests change a file that is there below a base. -/
def Spares (base : String) : Event σ → Provider σ ρ → Prop
  | asked _, _ => True
  | changed _ files, p => ∀ path place contents,
    p.files.find (Path.below base path) = .ok (place, .file contents) →
      files.find (Path.below base path) = .ok (place, .file contents)

/-- Only requests change a file that is there below a base, all along. -/
def AllSpare (base : String) : List (Event σ) → Provider σ ρ → Prop
  | [], _ => True
  | event :: rest, p => event.Spares base p ∧ AllSpare base rest (event.after p)

/-- A file below a base holds after an event what that has saved there last. -/
theorem find_after {event : Event σ} (hspares : event.Spares base p)
    (h : p.files.find (Path.below base path) = .ok (place, .file held)) :
    (event.after p).files.find (Path.below base path) =
      .ok (place, .file (Saving.last held (p.files.landed place (event.saves p)))) := by
  cases event with
  | asked request =>
    show (request.after p).files.find _ = _
    rw [request.files_after]
    exact FileSystem.find_saveAll h (request.saves p)
  | changed source files => exact hspares path place held h

/-- A file below a base holds after events what they have saved there last. -/
theorem find_afterAll (events : List (Event σ)) {p : Provider σ ρ} {held : Bytes}
    (hspare : AllSpare base events p)
    (h : p.files.find (Path.below base path) = .ok (place, .file held)) :
    (afterAll events p).files.find (Path.below base path) =
      .ok (place, .file (Saving.last held (landings place events p))) := by
  induction events generalizing p held with
  | nil => exact h
  | cons event rest ih =>
    obtain ⟨hspares, hrest⟩ := hspare
    rw [afterAll, ih hrest (find_after hspares h), landings, Saving.last_append]

/-- What a provider has for its classes, it has from then on. -/
structure Remembers (p q : Provider σ ρ) : Prop where
  settings : q.settings = p.settings
  classes : ∀ (name : ClassName) (contents : Bytes), p.classes[name]? = some contents →
    q.classes[name]? = some contents
  materialized : ∀ name ∈ p.materialized, name ∈ q.materialized

/-- An event keeps what is in place. -/
theorem remembers_after (event : Event σ) (p : Provider σ ρ) : Remembers p (event.after p) := by
  cases event with
  | asked request =>
    have hkeeps := request.keeps p
    exact ⟨hkeeps.settings, hkeeps.classes, fun _ => request.materialized_after⟩
  | changed source files => exact ⟨rfl, fun _ _ => id, fun _ => id⟩

theorem remembers_afterAll (events : List (Event σ)) (p : Provider σ ρ) :
    Remembers p (afterAll events p) := by
  induction events generalizing p with
  | nil => exact ⟨rfl, fun _ _ => id, fun _ => id⟩
  | cons event rest ih =>
    have hstep := event.remembers_after p
    have hrest := ih (event.after p)
    exact ⟨hrest.settings.trans hstep.settings,
      fun name contents h => hrest.classes name contents (hstep.classes name contents h),
      fun name h => hrest.materialized name (hstep.materialized name h)⟩

end Event

namespace Provider

/-! ## Resources later -/

variable {p : Provider σ ρ} {name : ClassName}

/-- What an event saves where the file of a class is, is a mirror, or comes from another class that
has the same file. -/
theorem file_of_mem_landed {event : Event σ} {place : Place} {held : Bytes} {s : Saving}
    (hplaced : name ∈ p.materialized)
    (hfind : p.files.find (Path.below p.settings.tempDirectory name.filePath) =
      .ok (place, .file held))
    (h : s ∈ p.files.landed place (event.saves p)) : IsMirror p.settings s.path ∨
      ∃ other : ClassName, other ≠ name ∧
        Path.names other.filePath = Path.names name.filePath ∧
        (event.after p).classes[other]? = some s.contents := by
  obtain ⟨hmem, fs, hgrows, hplace⟩ := FileSystem.mem_of_mem_landed h
  cases event with
  | changed source files => cases hmem
  | asked request =>
    rcases Request.mem_saves hmem with hmirror | ⟨other, hfresh, hpath, hbytes⟩
    · exact .inl hmirror
    · -- The class has its file, and nothing is put there for it a second time.
      have hother : other ≠ name := by
        rintro rfl
        exact hfresh hplaced
      refine .inr ⟨other, hother, ?_, hbytes⟩
      rw [hpath] at hplace
      exact (FileSystem.names_eq_of_place hgrows name.names_filePath_ne_nil
        other.names_filePath_ne_nil (FileSystem.find_eq_ok_iff.1 hfind).1 hplace).symm

/-- Whatever lands in the file of a class is a copy, or belongs to another class. -/
theorem file_of_mem_landings (events : List (Event σ)) {p : Provider σ ρ} {place : Place}
    {held : Bytes} {s : Saving} (hplaced : name ∈ p.materialized)
    (hspare : Event.AllSpare p.settings.tempDirectory events p)
    (hfind : p.files.find (Path.below p.settings.tempDirectory name.filePath) =
      .ok (place, .file held))
    (h : s ∈ Event.landings place events p) : IsMirror p.settings s.path ∨
      ∃ other : ClassName, other ≠ name ∧
        Path.names other.filePath = Path.names name.filePath ∧
        (Event.afterAll events p).classes[other]? = some s.contents := by
  induction events generalizing p held with
  | nil => cases h
  | cons event rest ih =>
    obtain ⟨hspares, hrest⟩ := hspare
    have hstep := event.remembers_after p
    -- The bytes of another class are still kept when the rest is over.
    rcases List.mem_append.1 h with h | h
    · rcases file_of_mem_landed hplaced hfind h with hmirror | ⟨other, hother, hnames, hbytes⟩
      · exact .inl hmirror
      · exact .inr ⟨other, hother, hnames,
          (Event.remembers_afterAll rest (event.after p)).classes other _ hbytes⟩
    · have hlater := Event.find_after hspares hfind
      rw [← hstep.settings] at hlater hrest ⊢
      exact ih (hstep.materialized name hplaced) hrest hlater h

/-- Once a class has been answered as a resource for the first time, its file holds what has been
saved there last. In the beginning these are the bytes of the class. Later ones are mirrors, or the
bytes of another class whose path has the same names, which is when two classes have the same file.
-/
theorem resource_holds_last {path : String} {location : Location} (events : List (Event σ))
    (hpath : ClassName.ofFilePath? path = some name) (hfresh : name ∉ p.materialized)
    (hanswer : ((resource path).run p).1 = .ok (some location))
    (hspare : Event.AllSpare p.settings.tempDirectory events ((resource path).run p).2) :
    let target := Path.below p.settings.tempDirectory name.filePath
    let first := ((resource path).run p).2
    let q := Event.afterAll events first
    (∃ contents place,
      location = .ofPath (FileSystem.absolutePath first.files.workingDirectory) target ∧
      first.files.place target = .ok place ∧
      (classBytes name).run q = (.ok (some contents), q) ∧
      q.files.read target = .ok (Saving.last contents (Event.landings place events first)) ∧
      ∀ s ∈ Event.landings place events first, IsMirror p.settings s.path ∨
        ∃ other : ClassName, other ≠ name ∧
          Path.names other.filePath = Path.names name.filePath ∧
          (classBytes other).run q = (.ok (some s.contents), q)) ∧
    ∀ other : ClassName, Path.below p.settings.tempDirectory other.filePath = target ↔
      Path.names other.filePath = Path.names name.filePath := by
  intro target first q
  refine ⟨?_, fun other => Path.below_eq_below_iff⟩
  have hresource : (resource path).run p = (classResource name).run p := by rw [resource, hpath]
  have hsettings : first.settings = p.settings := by
    show ((resource path).run p).2.settings = p.settings
    rw [hresource]
    exact (saves_classResource name p).settings
  obtain ⟨hlocation, hplaced, contents, place, hbytes, hfind⟩ :=
    holds_of_resource (q := first) hfresh rfl (hresource.symm.trans (Prod.ext hanswer rfl))
  have hlater := Event.remembers_afterAll events first
  have hlast := Event.find_afterAll events hspare hfind
  refine ⟨contents, place, hlocation, (FileSystem.find_eq_ok_iff.1 hfind).1, ?_, ?_, fun s hs => ?_⟩
  · exact run_classBytes_of_ready (hlater.classes name contents hbytes)
  · rw [FileSystem.read, hlast]
    rfl
  · rw [← hsettings] at hspare hfind ⊢
    rcases file_of_mem_landings events hplaced hspare hfind hs with hmirror
      | ⟨other, hother, hnames, h⟩
    · exact .inl hmirror
    · exact .inr ⟨other, hother, hnames, run_classBytes_of_ready h⟩

/-! ## Two classes of one file -/

/-- A mod of a class `A` and of another one whose path has an empty segment in front of the same
name. -/
def twinMod : MemorySource :=
  ⟨[("A.class", ClassTree.callingBytes), ("/A.class", ClassTree.superBytes)]⟩

/-- A provider of that mod that puts files into the directory `tmp` and mirrors nothing. -/
def twins : Provider MemorySource (Option NameTable) :=
  start { Settings.standard "tmp" with dumpDirectory := none } twinMod none
    (FileSystem.empty.insert ["tmp"] .directory) #[]

/-- What holds of that provider whatever it has been asked for. -/
structure Twinned (p : Provider MemorySource (Option NameTable)) : Prop where
  settings : p.settings = twins.settings
  source : p.source = twinMod
  renamer : p.renamer = none
  workingDirectory : p.files.workingDirectory = []
  directory : p.files.node? ["tmp"] = some .directory
  file : p.files.node? ["tmp", "A.class"] ≠ some .directory

namespace Twinned

variable {p : Provider MemorySource (Option NameTable)}

/-- Nothing has been saved at first. -/
theorem start : Twinned twins := by
  have hnodes : ∀ place, twins.files.node? place =
      if ["tmp"] = place then some .directory else FileSystem.empty.node? place :=
    fun place => FileSystem.node?_insert _ _ _ _ (by decide)
  refine ⟨rfl, rfl, rfl, rfl, ?_, ?_⟩
  · rw [hnodes, if_pos rfl]
  · rw [hnodes, if_neg (by decide)]
    simp [FileSystem.node?, FileSystem.empty]

/-- The temporary directory stays where it is, and so does the file. -/
theorem place (h : Twinned p) : p.files.place "tmp" = .ok ["tmp"] ∧
    p.files.place "tmp/A.class" = .ok ["tmp", "A.class"] := by
  have hdirectory : FileSystem.Spells "tmp" ["tmp"] := ⟨by decide, by decide, by decide⟩
  have hfile : FileSystem.Spells "tmp/A.class" ["tmp", "A.class"] :=
    ⟨by decide, by decide, by decide⟩
  have horigin : p.files.origin "tmp" = [] ∧ p.files.origin "tmp/A.class" = [] := by
    rw [FileSystem.origin, FileSystem.origin, h.workingDirectory]
    decide
  constructor
  · rw [FileSystem.place_of_spells hdirectory, horigin.1]
    · rfl
    · rintro (_ | n) hn
      · rw [horigin.1]
        rfl
      · simp at hn
  · rw [FileSystem.place_of_spells hfile, horigin.2]
    · rfl
    · rintro (_ | _ | n) hn
      · rw [horigin.2]
        rfl
      · rw [horigin.2]
        exact h.directory
      · simp only [List.length_cons, List.length_nil] at hn
        omega

/-- Both classes are saved to the same file. -/
theorem save (h : Twinned p) (contents : Bytes) : p.files.save "tmp/A.class" contents =
    (p.files.insert ["tmp", "A.class"] (.file contents), .ok ()) :=
  FileSystem.save_of_directory (by decide) (by decide) h.place.1 h.directory h.place.2
  h.file contents

/-- Whatever is put into the file, it stays a file. -/
theorem insert {files : FileSystem} (h : Twinned p) (contents : Bytes)
    (hfiles : files = p.files.insert ["tmp", "A.class"] (.file contents)) (classes materialized)
    (log : Array Record) : Twinned { p with files, classes, materialized, log } := by
  have hnodes : ∀ place, files.node? place =
      if ["tmp", "A.class"] = place then some (.file contents) else p.files.node? place := by
    rw [hfiles]
    exact fun place => FileSystem.node?_insert _ _ _ _ (by decide)
  refine ⟨h.settings, h.source, h.renamer, ?_, ?_, ?_⟩
  · rw [hfiles]
    exact h.workingDirectory
  · rw [hnodes, if_neg (by decide)]
    exact h.directory
  · rw [hnodes, if_pos rfl]
    simp

/-- Both classes are put into the file `tmp/A.class`. -/
theorem resource {name : ClassName} {raw contents : Bytes} {c : ClassTree} (h : Twinned p)
    (hbelow : Path.below "tmp" name.filePath = "tmp/A.class")
    (hfile : twinMod.files.lookup name.filePath = some raw) (hdecode : decode raw = .ok c)
    (hencode : encode ((c.rename .identity).widen twins.settings) = .ok contents)
    (hclass : name ∉ p.classes) (hfresh : name ∉ p.materialized) :
    ∃ q, (classResource name).run p = (.ok (some (.ofPath "/" "tmp/A.class")), q) ∧ Twinned q ∧
      q.classes = p.classes.insert name contents ∧
      q.materialized = p.materialized.insert name (.ofPath "/" "tmp/A.class") ∧
      q.files.read "tmp/A.class" = .ok contents := by
  have hserved : p.served c = (c.rename .identity).widen twins.settings := by
    rw [served, h.renamer, h.settings]
    rfl
  have hshowing : p.showing? name = some c := by
    rw [showing?, if_neg hclass, h.source]
    exact MemorySource.class?_of_lookup hfile hdecode
  have hsaves := saves_classBytes name p
  have hmaterialized := (keeps_classBytes name p).2
  rw [mirrorings_of_none (congrArg Settings.dumpDirectory h.settings)] at hsaves
  have hfiles := hsaves.files
  obtain ⟨first, hrun, haside⟩ := run_classBytes_of_showing? hshowing (hserved ▸ hencode)
  rw [hrun] at hmaterialized hfiles
  -- Making the class ready changes nothing that tells where its file goes.
  have hfirst : Twinned first := by
    refine ⟨haside.settings.trans h.settings, ?_, ?_, ?_, ?_, ?_⟩
    · exact (haside.source (MemorySource.steady _)).trans h.source
    · rw [haside.renamer]
      show Renamer.learn p.renamer c = none
      rw [h.renamer]
      rfl
    all_goals
      rw [hfiles]
    · exact h.workingDirectory
    · exact h.directory
    · exact h.file
  have hpath : Path.below first.settings.tempDirectory name.filePath = "tmp/A.class" := by
    rw [hfirst.settings]
    exact hbelow
  obtain ⟨log, hresource⟩ := run_classResource_of_saved hfresh hrun hpath (hfirst.save contents)
  have hlocation : FileSystem.absolutePath first.files.workingDirectory = "/" := by
    rw [hfirst.workingDirectory]
    decide
  have hq := hfirst.insert contents rfl first.classes
    (first.materialized.insert name (.ofPath "/" "tmp/A.class")) log
  refine ⟨_, ?_, hq, haside.classes, ?_, ?_⟩
  · rw [hresource]
    simp only [FileSystem.insert, hlocation]
  · rw [hmaterialized]
  · have hnode : (first.files.insert ["tmp", "A.class"] (.file contents)).node? ["tmp", "A.class"] =
        some (.file contents) := by
      rw [FileSystem.node?_insert _ _ _ _ (by decide), if_pos rfl]
    rw [FileSystem.read, FileSystem.find_eq_ok_iff.2 ⟨hq.place.2, hnode⟩]
    rfl

/-- The two classes are put into the file one after the other. -/
theorem both : ∃ first second,
    (Provider.resource "A.class").run twins = (.ok (some (.ofPath "/" "tmp/A.class")), first) ∧
      (Provider.resource "/A.class").run first = (.ok (some (.ofPath "/" "tmp/A.class")), second) ∧
      second.classes[ClassName.normalize "A"]? = some ClassTree.callingBytes ∧
      second.files.read "tmp/A.class" = .ok ClassTree.superBytes := by
  have hpaths : ClassName.ofFilePath? "A.class" = some (.normalize "A") ∧
      ClassName.ofFilePath? "/A.class" = some (.normalize "/A") := by decide
  have hnames : (ClassName.normalize "A").filePath = "A.class" ∧
      (ClassName.normalize "/A").filePath = "/A.class" := by decide
  have hother : ClassName.normalize "A" ≠ .normalize "/A" := by decide
  have hbelow : Path.below "tmp" (ClassName.normalize "A").filePath = "tmp/A.class" ∧
      Path.below "tmp" (ClassName.normalize "/A").filePath = "tmp/A.class" := by decide
  have hcalling : encode (((ClassTree.calling "m").rename .identity).widen twins.settings) =
      .ok ClassTree.callingBytes :=
    ClassTree.encode_calling_widen _
  have hsuper : encode ((ClassTree.superClass.rename .identity).widen twins.settings) =
      .ok ClassTree.superBytes := by
    rw [ClassTree.rename_superClass, ClassTree.superClass, ClassTree.widen_bare]
    exact ClassTree.encode_superClass
  obtain ⟨first, hfirst, htwinned, hclasses, hmaterialized, -⟩ :=
    start.resource hbelow.1 (by rw [hnames.1]; rfl)
      ClassTree.decode_calling hcalling (by simp [twins, Provider.start])
      (by simp [twins, Provider.start])
  obtain ⟨second, hsecond, -, hclasses', -, hread⟩ :=
    htwinned.resource hbelow.2 (by rw [hnames.2]; rfl)
      ClassTree.decode_superClass hsuper (by simp [hclasses, twins, Provider.start, hother])
      (by simp [hmaterialized, twins, Provider.start, hother])
  refine ⟨first, second, ?_, ?_, ?_, hread⟩
  · rw [Provider.resource, hpaths.1]
    exact hfirst
  · rw [Provider.resource, hpaths.2]
    exact hsecond
  · rw [hclasses', hclasses, Std.HashMap.getElem?_insert, if_neg (by simpa using hother.symm),
      Std.HashMap.getElem?_insert_self]

end Twinned

/-- The first one to be put there is `A`. -/
theorem resource_holds_last_twins :
    ClassName.ofFilePath? "A.class" = some (.normalize "A") ∧
      ClassName.normalize "A" ∉ twins.materialized ∧
      ∃ first, (resource "A.class").run twins = (.ok (some (.ofPath "/" "tmp/A.class")), first) ∧
        let events := [Event.asked (.resource "/A.class")]
        let q := Event.afterAll events first
        Event.AllSpare "tmp" events first ∧ ∃ contents place,
          (classBytes (.normalize "A")).run q = (.ok (some contents), q) ∧
          q.files.read "tmp/A.class" =
            .ok (Saving.last contents (Event.landings place events first)) := by
  obtain ⟨first, -, hfirst, -⟩ := Twinned.both
  have hpath : ClassName.ofFilePath? "A.class" = some (.normalize "A") := by decide
  have hfresh : ClassName.normalize "A" ∉ twins.materialized := by simp [twins, start]
  have hspare : Event.AllSpare "tmp" [.asked (.resource "/A.class")] first := ⟨trivial, trivial⟩
  have htarget : Path.below "tmp" (ClassName.normalize "A").filePath = "tmp/A.class" := by decide
  have hholds := resource_holds_last (p := twins) [.asked (.resource "/A.class")] hpath hfresh
    (congrArg Prod.fst hfirst) (by rw [hfirst]; exact hspare)
  have htemp : twins.settings.tempDirectory = "tmp" := rfl
  simp only [hfirst, htemp, htarget] at hholds
  obtain ⟨⟨contents, place, -, -, hbytes, hread, -⟩, -⟩ := hholds
  exact ⟨hpath, hfresh, first, hfirst, hspare, contents, place, hbytes, hread⟩

/-- The file of one class comes to hold the bytes of the other one, which is answered with the same
location. -/
theorem resource_holds_other :
    let name := ClassName.normalize "A"
    let first := ((resource "A.class").run twins).2
    let second := ((resource "/A.class").run first).2
    ClassName.normalize "/A" ≠ name ∧
      ((resource "A.class").run twins).1 = .ok (some (.ofPath "/" "tmp/A.class")) ∧
      ((resource "/A.class").run first).1 = .ok (some (.ofPath "/" "tmp/A.class")) ∧
      (classBytes name).run second = (.ok (some ClassTree.callingBytes), second) ∧
      second.files.read "tmp/A.class" = .ok ClassTree.superBytes ∧
      ClassTree.superBytes ≠ ClassTree.callingBytes := by
  obtain ⟨first, second, hfirst, hsecond, hbytes, hread⟩ := Twinned.both
  simp only [hfirst, hsecond]
  refine ⟨by decide, trivial, trivial, run_classBytes_of_ready hbytes, hread, by decide⟩

end Provider

end Crosswalk
