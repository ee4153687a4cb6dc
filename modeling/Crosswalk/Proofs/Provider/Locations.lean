import Crosswalk.Proofs.Files.Saving
import Crosswalk.Proofs.Location.Collapsing
import Crosswalk.Proofs.Provider.Shelves
import Crosswalk.Source.Directory

/-!
# Where resources are said to be

A resource that is no class is answered with the location that the mod has it at, once that has been
collapsed. The locations of an unpacked mod are escaped only once, so they lead to the file unless
its path has a backslash or a percent sign that two digits follow (`Provider.resource_located`).
-/

namespace Crosswalk

namespace DirectorySource

/-- What is in an unpacked mod has a path from the root. -/
theorem exists_resolve_of_has {s : DirectorySource} {fs : FileSystem} {name : String}
    (h : ModSource.has fs s name = true) :
    ∃ path, s.resolve name = some path ∧ Path.isAbsolute path = true := by
  obtain ⟨path, hpath, -⟩ := (Option.any_eq_true _ _).1 h
  refine ⟨path, hpath, ?_⟩
  rw [resolve] at hpath
  split at hpath
  · cases hpath
  · have hroot : Path.isAbsolute (FileSystem.absolutePath s.root) = true := by
      simp [Path.isAbsolute, FileSystem.absolutePath]
    rw [← Option.some.inj hpath]
    exact (Path.isAbsolute_below _ name).trans hroot

/-- Reading a file does not change what is known about the mod. -/
theorem source_read (fs : FileSystem) (s : DirectorySource) (path : String) :
    (ModSource.read fs s path).2 = s := by
  simp only [ModSource.read]
  split <;> rfl

end DirectorySource

namespace Provider

variable {ρ : Type} [Renamer ρ] {p : Provider DirectorySource ρ} {name path : String}

/-- Every file of an unpacked mod that is no class is answered with the location of its path,
whether it can be mirrored or not. -/
theorem run_resource_of_has (hplain : ClassName.ofFilePath? name = none)
    (hhas : ModSource.has p.files p.source name = true)
    (hpath : p.source.resolve name = some path) : ∃ directory,
      ((resource name).run p).1 = .ok (some (Location.ofPath directory path).collapse) := by
  obtain ⟨source, files, log, hdump, hsource⟩ := run_dumpResource name p
  have hsame : source = p.source := by
    rcases hsource with hsame | hread
    · exact hsame
    · exact hread.trans (DirectorySource.source_read ..)
  have hlocate : ModSource.locate files p.source name =
      .ok (.ofPath (FileSystem.absolutePath files.workingDirectory) path) := by
    simp only [ModSource.locate, hpath]
  refine ⟨FileSystem.absolutePath files.workingDirectory, ?_⟩
  rw [resource, hplain]
  show ((plainResource name).run p).1 = _
  -- Mirroring comes first, and whatever becomes of it leaves the mod as it was.
  rw [plainResource, run_bind_ok (run_has ..), hhas]
  show ((dumpResource name >>= _ : Serving DirectorySource ρ _).run p).1 = _
  rw [run_bind_ok hdump, run_bind_ok (run_get _)]
  simp only [hsame, hlocate]
  rfl

/-- Every file of an unpacked mod that is no class is answered with a location. It leads to the path
of the file exactly if that has no backslash and no percent sign that two digits follow. -/
theorem resource_located (hplain : ClassName.ofFilePath? name = none)
    (hhas : ModSource.has p.files p.source name = true) : ∃ path location,
      p.source.resolve name = some path ∧ ((resource name).run p).1 = .ok (some location) ∧
        (location.toPath? = some path ↔
          '\\' ∉ path.toList ∧ ¬Location.HoldsEscape path.toList) := by
  obtain ⟨path, hpath, habsolute⟩ := DirectorySource.exists_resolve_of_has hhas
  obtain ⟨directory, hrun⟩ := run_resource_of_has hplain hhas hpath
  exact ⟨path, _, hpath, hrun, Location.toPath?_collapse_eq_iff directory habsolute⟩

/-- A mod with one empty file. -/
def holding (file : String) : Provider DirectorySource NameTable :=
  .start (.standard "tmp") ⟨["mod"]⟩ .empty
    ((FileSystem.empty.insert ["mod"] .directory).insert ["mod", file] (.file [])) #[]

/-- The file of the mod is there. -/
theorem isFile_holding {file : String} (h : FileSystem.Spells path ["mod", file]) :
    (holding file).files.isFile path = true := by
  have hnode : ∀ place, (holding file).files.node? place =
      if ["mod", file] = place then some (.file [])
      else if ["mod"] = place then some .directory else FileSystem.empty.node? place := by
    intro place
    show FileSystem.node? (FileSystem.insert _ _ _) place = _
    rw [FileSystem.node?_insert _ _ _ _ (by simp), FileSystem.node?_insert _ _ _ _ (by decide)]
  have horigin : (holding file).files.origin path = [] := by
    rw [FileSystem.origin]
    split <;> rfl
  have hplace : (holding file).files.place path = .ok ["mod", file] := by
    rw [FileSystem.place_of_spells h, horigin, List.nil_append]
    rw [horigin]
    -- On the way there are the root and the mod, and both of them are directories.
    rintro (_ | _ | n) hn
    · rfl
    · simp [hnode]
    · change n + 2 < 2 at hn
      omega
  have hfind := FileSystem.find_eq_ok_iff.2 ⟨hplace, (hnode _).trans (if_pos rfl)⟩
  rw [FileSystem.isFile, hfind]

/-- A percent sign that no digits follow does no harm. -/
theorem resource_located_hundred :
    ClassName.ofFilePath? "100% Größe.txt" = none ∧
    ModSource.has (holding "100% Größe.txt").files (holding "100% Größe.txt").source
      "100% Größe.txt" = true ∧
    ∃ location, ((resource "100% Größe.txt").run (holding "100% Größe.txt")).1 =
      .ok (some location) ∧ location.toPath? = some "/mod/100% Größe.txt" := by
  have hplain : ClassName.ofFilePath? "100% Größe.txt" = none := by decide
  have hspells : FileSystem.Spells "/mod/100% Größe.txt" ["mod", "100% Größe.txt"] :=
    ⟨by decide, by decide, by decide⟩
  have hfile := isFile_holding hspells
  obtain ⟨path, location, hpath, hrun, hiff⟩ := resource_located hplain hfile
  have hsame : path = "/mod/100% Größe.txt" := Option.some.inj (hpath.symm.trans rfl)
  subst hsame
  exact ⟨hplain, hfile, location, hrun, hiff.2 ⟨by decide, by decide⟩⟩

/-- A file whose name looks escaped is taken for the one that its name spells. -/
theorem resource_misplaced :
    ClassName.ofFilePath? "a%20b.txt" = none ∧
    ModSource.has (holding "a%20b.txt").files (holding "a%20b.txt").source "a%20b.txt" = true ∧
    (holding "a%20b.txt").source.resolve "a%20b.txt" = some "/mod/a%20b.txt" ∧
    ∃ location, ((resource "a%20b.txt").run (holding "a%20b.txt")).1 = .ok (some location) ∧
      location.toPath? = some "/mod/a b.txt" ∧ location.toPath? ≠ some "/mod/a%20b.txt" := by
  have hplain : ClassName.ofFilePath? "a%20b.txt" = none := by decide
  have hspells : FileSystem.Spells "/mod/a%20b.txt" ["mod", "a%20b.txt"] :=
    ⟨by decide, by decide, by decide⟩
  have hfile := isFile_holding hspells
  have hpath : (holding "a%20b.txt").source.resolve "a%20b.txt" = some "/mod/a%20b.txt" := rfl
  obtain ⟨directory, hrun⟩ := run_resource_of_has hplain hfile hpath
  have hread : (Location.ofPath directory "/mod/a%20b.txt").collapse.toPath? =
      some "/mod/a b.txt" := by
    rw [Location.toPath?_collapse, Location.join_of_isAbsolute _ (by decide),
      Utf8.fromUTF8?_eq_some_iff, Utf8.toList_toUTF8]
    decide
  refine ⟨hplain, hfile, hpath, _, hrun, hread, ?_⟩
  rw [hread]
  decide

end Provider

end Crosswalk
