import Crosswalk.Proofs.Files.Apart
import Crosswalk.Proofs.Provider.Resources
import Crosswalk.Source.Directory

/-!
# Where a provider can write

Names come from whoever asks, and what they lead to must not lie outside of the directories that a
provider may write to. Both ways to make a path of a name append names to a directory and nothing
else (`Path.GoesOn`). `Path.below` leaves out what could lead elsewhere, and
`DirectorySource.resolve` refuses to go up; where nothing goes up they append the same. So whatever
a provider is asked for, it writes to the directories that it is told to, or below them
(`Provider.saves_confined`).
-/

namespace Crosswalk

/-! ## Going on with names -/

namespace Path

variable {base path : String} {more : List String}

/-- The path goes on from a base with these names: they are joined to it one after the other, and
what stands between the slashes of the path is what stands there in the base, and behind that the
names. -/
structure GoesOn (base : String) (more : List String) (path : String) : Prop where
  names : ∀ s ∈ more, '/' ∉ s.toList ∧ isName s = true
  joined : path = more.foldl join base
  start : isAbsolute path = isAbsolute base
  parts : parts path = Path.parts base ++ more

/-- Names lead on from a base. -/
theorem goesOn_foldl_join (base : String) (hnames : ∀ s ∈ more, '/' ∉ s.toList ∧ isName s = true) :
    GoesOn base more (more.foldl join base) := by
  obtain ⟨hparts, hstart⟩ := parts_foldl_join base hnames
  exact ⟨hnames, rfl, hstart, hparts⟩

/-- A path below what a base is joined to goes on from the base. -/
theorem goesOn_below_foldl {front : List String} (base path : String)
    (hfront : ∀ s ∈ front, '/' ∉ s.toList ∧ isName s = true) :
    GoesOn base (front ++ Path.names path) (below (front.foldl join base) path) := by
  have hbelow : below (front.foldl join base) path = (front ++ Path.names path).foldl join base :=
    (List.foldl_append ..).symm
  rw [hbelow]
  refine goesOn_foldl_join base fun s hs => ?_
  rcases List.mem_append.1 hs with hs | hs
  · exact hfront s hs
  · exact isName_of_mem_names hs

/-- A path below a base goes on from it with the names of the other path, and with nothing else. -/
theorem goesOn_below_iff : GoesOn base more (below base path) ↔ more = Path.names path := by
  constructor
  · intro h
    have hparts := h.parts
    rw [parts_below] at hparts
    exact (List.append_cancel_left hparts).symm
  · rintro rfl
    exact goesOn_below_foldl base path (List.forall_mem_nil _)

end Path

namespace FileSystem

/-- A path that goes on from a base leads to where the base does, and from there along the names. -/
theorem lead_of_goesOn {fs : FileSystem} {base path : String} {more : List String}
    (h : Path.GoesOn base more path) : lead (fs.origin path) (Path.significant path) =
      lead (fs.origin base) (Path.significant base) ++ more := by
  have hnames : ∀ s ∈ more, Path.isName s = true := fun s hs => (h.names s hs).2
  rw [origin, h.start, ← origin, Path.significant_of_parts h.start h.parts hnames, lead_append,
    lead_names _ hnames]

end FileSystem

namespace DirectorySource

/-- A path in a directory lies below it, unless it goes up. -/
theorem resolve_eq (s : DirectorySource) (path : String) : s.resolve path =
    if ".." ∈ Path.segments path then none
    else some (Path.below (FileSystem.absolutePath s.root) path) := by
  rw [resolve, List.contains_eq_mem]
  simp only [decide_eq_true_eq]
  rfl

end DirectorySource

/-! ## What a provider writes -/

/-- Where settings let a provider write, with the names that it goes on with in any case: to the
temporary directory, and to the parts of the dump directory for classes and for resources. -/
inductive Settings.Permits (settings : Settings) : String → List String → Prop
  | temporary : Permits settings settings.tempDirectory []
  | classes {directory : String} (hdump : settings.dumpDirectory = some directory) :
    Permits settings directory ["class"]
  | resources {directory : String} (hdump : settings.dumpDirectory = some directory) :
    Permits settings directory ["resource"]

/-- The path in the mod that a request is about. -/
def Request.file : Request → String
  | classBytes name | classTree name => name.filePath
  | resource path =>
    match ClassName.ofFilePath? path with
    | some name => name.filePath
    | none => path

namespace Provider

open FileSystem (Saving)

/-- The path is where settings let a provider write, and goes on with the names of the one in the
mod. -/
def Confined (settings : Settings) (file path : String) : Prop :=
  ∃ directory front, settings.Permits directory front ∧
    Path.GoesOn directory (front ++ Path.names file) path

/-- A directory that is permitted confines the files in it. -/
theorem confined_of_permits {settings : Settings} {directory : String} {front : List String}
    (h : settings.Permits directory front) (file : String) :
    Confined settings file (Path.below (front.foldl Path.join directory) file) := by
  refine ⟨directory, front, h, Path.goesOn_below_foldl directory file ?_⟩
  cases h <;> decide

variable {σ ρ : Type} [ModSource σ] [Renamer ρ] {p : Provider σ ρ} {s : Saving}

theorem confined_of_mem_mirrorings {name : ClassName} (h : s ∈ p.mirrorings name) :
    Confined p.settings name.filePath s.path := by
  obtain ⟨contents, h⟩ := exists_of_mem_mirrorings h
  obtain ⟨directory, hdump, hpath⟩ := exists_of_mem_mirror h
  rw [hpath]
  exact confined_of_permits (.classes hdump) name.filePath

omit [Renamer ρ] in

/-- Copies of other files are confined as well. -/
theorem confined_of_mem_copies {path : String} (h : s ∈ p.copies path) :
    Confined p.settings path s.path := by
  obtain ⟨contents, h⟩ := exists_of_mem_copies h
  obtain ⟨directory, hdump, hpath⟩ := exists_of_mem_mirror h
  rw [hpath]
  exact confined_of_permits (.resources hdump) path

/-- Classes that are put in place are confined as well. -/
theorem confined_of_mem_placings {name : ClassName} (h : s ∈ p.placings name) :
    Confined p.settings name.filePath s.path := by
  rcases mem_placings h with h | ⟨-, htarget, -⟩
  · exact confined_of_mem_mirrorings h
  · rw [htarget]
    exact confined_of_permits .temporary name.filePath

theorem confined_of_mem_saves {request : Request} (h : s ∈ request.saves p) :
    Confined p.settings request.file s.path := by
  cases request with
  | classBytes name | classTree name => exact confined_of_mem_mirrorings h
  | resource path =>
    rw [Request.saves] at h
    rw [Request.file]
    cases hpath : ClassName.ofFilePath? path with
    | none =>
      rw [hpath] at h
      exact confined_of_mem_copies h
    | some name =>
      rw [hpath] at h
      exact confined_of_mem_placings h

/-- Whatever has happened, a request does nothing to files but to save some whose paths go on from
where the settings let it write, with names only, and no file comes to be anywhere else. Neither
does a mod in a directory have paths elsewhere: it has none where the path goes up, and otherwise
the one that goes on from the directory with the same names as the provider does from its own. -/
theorem saves_confined (events : List (Event σ)) (request : Request) (p : Provider σ ρ) :
    let q := Event.afterAll events p
    ((request.after q).files = q.files.saveAll (request.saves q) ∧
      (∀ s ∈ request.saves q, Confined p.settings request.file s.path) ∧
      ∀ place contents, (request.after q).files.node? place = some (.file contents) →
        q.files.node? place = some (.file contents) ∨
        ∃ directory front, p.settings.Permits directory front ∧
          place = FileSystem.lead (q.files.origin directory) (Path.significant directory) ++
            (front ++ Path.names request.file)) ∧
    ∀ (mod : DirectorySource) (path : String),
      (mod.resolve path = none ↔ ".." ∈ Path.segments path) ∧
      ∀ resolved, mod.resolve path = some resolved →
        (∃ more, Path.GoesOn (FileSystem.absolutePath mod.root) more resolved) ∧
        ∀ base more, Path.GoesOn (FileSystem.absolutePath mod.root) more resolved ↔
          Path.GoesOn base more (Path.below base path) := by
  intro q
  have hsettings : q.settings = p.settings := (Event.remembers_afterAll events p).settings
  have hconfined : ∀ s ∈ request.saves q, Confined p.settings request.file s.path := by
    rw [← hsettings]
    exact fun s => confined_of_mem_saves
  refine ⟨⟨request.files_after q, hconfined, fun place contents h => ?_⟩, fun mod path => ?_⟩
  · rw [request.files_after q] at h
    rcases FileSystem.file_saveAll h with hbefore | ⟨s, hs, -, hplace⟩
    · exact .inl hbefore
    · obtain ⟨directory, front, hpermits, hgoes⟩ := hconfined s hs
      refine .inr ⟨directory, front, hpermits, ?_⟩
      -- Saves leave the working directory as it is, so the directory still starts there.
      have hworking := (FileSystem.grows_saveAll q.files (request.saves q)).workingDirectory
      rw [FileSystem.eq_lead_of_place hplace, FileSystem.lead_of_goesOn hgoes, FileSystem.origin,
        hworking, ← FileSystem.origin]
  · rw [DirectorySource.resolve_eq]
    by_cases hup : ".." ∈ Path.segments path
    · rw [if_pos hup]
      refine ⟨iff_of_true rfl hup, ?_⟩
      intro resolved hresolved
      cases hresolved
    · rw [if_neg hup]
      refine ⟨iff_of_false (Option.some_ne_none _) hup, ?_⟩
      rintro resolved ⟨⟩
      refine ⟨⟨_, Path.goesOn_below_iff.2 rfl⟩, fun base more => ?_⟩
      rw [Path.goesOn_below_iff, Path.goesOn_below_iff]

/-- A mod of a file whose path goes up. -/
def upwardMod : MemorySource :=
  ⟨[("../x.txt", [1])]⟩

/-- A provider of that mod that dumps what it serves to `out`. -/
def upward : Provider MemorySource (Option NameTable) :=
  start { Settings.standard "tmp" with dumpDirectory := some "out" } upwardMod none
    ((FileSystem.empty.insert ["out"] .directory).insert ["out", "resource"] .directory) #[]

/-- There are only three directories at first. -/
theorem node?_upward (place : Place) : upward.files.node? place =
    if place ∈ [[], ["out"], ["out", "resource"]] then some .directory else none := by
  have hempty : FileSystem.empty.node? place = if place = [] then some .directory else none := by
    simp [FileSystem.node?, FileSystem.empty]
  have hfiles : upward.files = (FileSystem.empty.insert ["out"] .directory).insert
      ["out", "resource"] .directory := rfl
  rw [hfiles, FileSystem.node?_insert _ _ _ _ (by decide),
    FileSystem.node?_insert _ _ _ _ (by decide),
    hempty]
  simp only [List.mem_cons, List.not_mem_nil, or_false, eq_comm (b := place)]
  split_ifs <;> simp_all

/-- The copy is put in the last one of them. -/
theorem save_upward : upward.files.save "out/resource/x.txt" [1] =
    (upward.files.insert ["out", "resource", "x.txt"] (.file [1]), .ok ()) := by
  have hdirectory : FileSystem.Spells "out/resource" ["out", "resource"] :=
    ⟨by decide, by decide, by decide⟩
  have hfile : FileSystem.Spells "out/resource/x.txt" ["out", "resource", "x.txt"] :=
    ⟨by decide, by decide, by decide⟩
  have horigin : upward.files.origin "out/resource" = [] ∧
      upward.files.origin "out/resource/x.txt" = [] := ⟨rfl, rfl⟩
  have hplace : upward.files.place "out/resource" = .ok ["out", "resource"] ∧
      upward.files.place "out/resource/x.txt" = .ok ["out", "resource", "x.txt"] := by
    rw [FileSystem.place_of_spells hdirectory, FileSystem.place_of_spells hfile,
      horigin.1, horigin.2]
    · exact ⟨rfl, rfl⟩
    all_goals
      simp only [node?_upward]
      decide
  refine FileSystem.save_of_directory (by decide) (by decide) hplace.1 ?_ hplace.2 ?_ [1] <;>
    simp [node?_upward]

/-- A file whose path goes up is mirrored below the dump directory, and a mod in a directory has a
path for a text with steps that lead nowhere. -/
theorem saves_confined_upward :
    let request := Request.resource "../x.txt"
    let saving : Saving := ⟨"out/resource/x.txt", [1]⟩
    let place := ["out", "resource", "x.txt"]
    (saving ∈ request.saves upward ∧ Confined upward.settings request.file saving.path) ∧
      ((request.after upward).files.node? place = some (.file [1]) ∧
        (upward.files.node? place = some (.file [1]) ∨
          ∃ directory front, upward.settings.Permits directory front ∧
            place = FileSystem.lead (upward.files.origin directory) (Path.significant directory) ++
              (front ++ Path.names request.file))) ∧
      DirectorySource.resolve ⟨["mod"]⟩ "./a//b" = some "/mod/a/b" ∧
        ∃ more, Path.GoesOn "/mod" more "/mod/a/b" := by
  intro request saving place
  have hsaves : request.saves upward = [saving] := by decide
  have hresolve : DirectorySource.resolve ⟨["mod"]⟩ "./a//b" = some "/mod/a/b" := by decide
  obtain ⟨⟨hfiles, hconfined, hlands⟩, hmods⟩ := saves_confined [] request upward
  have hmem : saving ∈ request.saves upward := hsaves ▸ List.mem_singleton_self saving
  have hnode : (request.after upward).files.node? place = some (.file [1]) := by
    show (request.after (Event.afterAll [] upward)).files.node? place = _
    rw [hfiles]
    show (upward.files.saveAll (request.saves upward)).node? place = _
    rw [hsaves, FileSystem.saveAll, save_upward, FileSystem.saveAll,
      FileSystem.node?_insert _ _ _ _ (by decide), if_pos rfl]
  exact ⟨⟨hmem, hconfined saving hmem⟩, ⟨hnode, hlands place [1] hnode⟩, hresolve,
    ((hmods ⟨["mod"]⟩ "./a//b").2 _ hresolve).1⟩

end Provider

end Crosswalk
