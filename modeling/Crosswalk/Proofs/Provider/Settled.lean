import Crosswalk.Proofs.Files.Apart
import Crosswalk.Proofs.Provider.Sources
import Crosswalk.Source.Mod

/-!
# Sources that lie somewhere

A source is settled at some places if it has the same in file systems that have the same files there
(`ModSource.Settled`). That holds of a mod in memory, which lies nowhere, and of a mod that lies at
one of the places, unpacked or packed (`Mod.settled`).
-/

namespace Crosswalk

open FileSystem

/-- What a source has depends on nothing but the files at and below some places, and reading does
not change it. -/
structure ModSource.Settled {σ : Type} [ModSource σ] (kept : List Place) (s : σ) : Prop where
  has : ∀ {place fs fs'}, Alike place kept fs fs' → ∀ path,
    ModSource.has fs' s path = ModSource.has fs s path
  read : ∀ {place fs fs'}, Alike place kept fs fs' → ∀ path, ModSource.has fs s path = true →
    (ModSource.read fs' s path).1 = (ModSource.read fs s path).1
  same : ∀ fs path, (ModSource.read fs s path).2 = s
  locate : ∀ {place fs fs'}, Alike place kept fs fs' → ∀ path,
    ModSource.locate fs' s path = ModSource.locate fs s path

namespace ModSource.Settled

variable {σ : Type} [ModSource σ] {place : Place} {kept : List Place} {s : σ}

theorem steady (h : Settled kept s) : ModSource.Steady s :=
  h.same

/-- The same class is in the file of a class. -/
theorem class? (h : Settled kept s) {fs fs' : FileSystem} (halike : Alike place kept fs fs')
    (name : ClassName) : ModSource.class? fs' s name = ModSource.class? fs s name := by
  rw [ModSource.class?, ModSource.class?, h.has halike]
  split
  · next hhas => rw [h.read halike _ hhas]
  · rfl

end ModSource.Settled

/-- A mod in memory does not depend on any files. -/
theorem MemorySource.settled (kept : List Place) (s : MemorySource) :
    ModSource.Settled kept s where
  has _ _ := rfl
  read _ _ _ := rfl
  same := s.steady
  locate _ _ := rfl

/-! ## Files below a place -/

namespace FileSystem

variable {fs fs' : FileSystem} {here root place : Place} {kept : List Place} {names : List String}
  {path : String}

/-- Names lead to the same place in a file system that has something there. -/
theorem walk_of_node (hclosed : Closed fs') (hnames : ∀ s ∈ names, Path.isName s = true)
    {node : FileNode} (hnode : fs'.node? place = some node) (h : fs.walk here names = .ok place) :
    fs'.walk here names = .ok place := by
  induction names using List.reverseRecOn generalizing place node with
  | nil => exact h
  | append_singleton front s ih =>
    have hs := hnames s (List.mem_append_right front (List.mem_singleton_self s))
    obtain ⟨mid, hmid, hlast⟩ := walk_append_eq_ok_iff.1 h
    rw [walk_name (walk_cons_eq_ok_iff.1 hlast).1 hs] at hlast
    split at hlast
    · cases hlast
    · next hlimit =>
      cases hlast
      have habove := hclosed.above _ _ hnode
      rw [List.dropLast_concat] at habove
      refine walk_append_eq_ok_iff.2 ⟨mid, ?_, ?_⟩
      · exact ih (fun s hs => hnames s (List.mem_append_left _ hs)) habove hmid
      · rw [walk_name habove hs, if_neg hlimit]

/-- The steps from the root to what lies below a place. -/
theorem steps_below (hroot : ∀ s ∈ root, '/' ∉ s.toList ∧ Path.isName s = true)
    (hne : root ++ Path.names path ≠ []) :
    steps (Path.below (absolutePath root) path) = root ++ Path.names path := by
  have hsegments : ∀ s ∈ root, '/' ∉ s.toList ∧ s ≠ "" := fun s hs =>
    ⟨(hroot s hs).1, (Path.ne_of_isName (hroot s hs).2).1⟩
  have hbase : absolutePath root = Path.ofSegments true root := rfl
  have hparts : (Path.segments (Path.below (absolutePath root) path)).filter (· != "") =
      root ++ Path.names path := by
    have h := Path.parts_below (absolutePath root) path
    rw [hbase, (Path.parts_ofSegments true hsegments).1, ← hbase] at h
    rwa [Path.parts] at h
  have hslash : (Path.below (absolutePath root) path).toList.getLast? ≠ some '/' := by
    by_cases hnames : Path.names path = []
    · rw [hnames, List.append_nil] at hne
      rw [Path.below, ← Path.names, hnames, List.foldl_nil, hbase]
      exact Path.getLast?_ofSegments hsegments hne
    · exact Path.getLast?_below _ hnames
  rw [steps, if_neg (by simpa using hslash), List.append_nil, hparts]

/-- A file below a place that is kept can be found in both file systems. -/
theorem Alike.find_below {other : Place} (h : Alike place kept fs fs') (hmem : root ∈ kept)
    (hroot : ∀ s ∈ root, '/' ∉ s.toList ∧ Path.isName s = true) {contents : Bytes}
    (hfind : fs.find (Path.below (absolutePath root) path) = .ok (other, .file contents)) :
    fs'.find (Path.below (absolutePath root) path) = .ok (other, .file contents) := by
  obtain ⟨hplace, hnode⟩ := find_eq_ok_iff.1 hfind
  have hnames : ∀ s ∈ root ++ Path.names path, Path.isName s = true := by
    intro s hs
    rcases List.mem_append.1 hs with hs | hs
    · exact (hroot s hs).2
    · exact (Path.isName_of_mem_names hs).2
  have habsolute : Path.isAbsolute (Path.below (absolutePath root) path) = true := by
    rw [Path.isAbsolute_below]
    exact (Path.parts_ofSegments true fun s hs =>
      ⟨(hroot s hs).1, (Path.ne_of_isName (hroot s hs).2).1⟩).2
  have horigin : ∀ fs : FileSystem, fs.origin (Path.below (absolutePath root) path) = [] :=
    fun fs => if_pos habsolute
  have hwalk := walk_of_place hplace
  rw [horigin] at hwalk
  -- The root is no file, so there are names on the way.
  have hne : root ++ Path.names path ≠ [] := by
    intro hnil
    obtain ⟨rfl, hempty⟩ := List.append_eq_nil_iff.1 hnil
    have hpath : Path.below (absolutePath []) path = "/" := by
      rw [Path.below, ← Path.names, hempty]
      rfl
    rw [hpath, place_root] at hplace
    cases hplace
    cases hnode
  have hsteps := steps_below hroot hne
  rw [hsteps] at hwalk
  have hsame := walk_names hnames hwalk
  rw [List.nil_append] at hsame
  have hnode' : fs'.node? other = some (.file contents) :=
    (h.file other (.inr ⟨root, hmem, hsame ▸ List.prefix_append _ _⟩) contents).2 hnode
  refine find_eq_ok_iff.2 ⟨?_, hnode'⟩
  rw [place_eq] at hplace ⊢
  split at hplace
  · cases hplace
  · next hrefusal =>
    rw [horigin, hsteps]
    exact walk_of_node h.closed' hnames hnode' hwalk

theorem isFile_eq_true_iff :
    fs.isFile path = true ↔ ∃ place contents, fs.find path = .ok (place, .file contents) := by
  rw [isFile]
  split
  · next place contents hfind => exact iff_of_true rfl ⟨place, contents, hfind⟩
  · next hnone =>
    exact iff_of_false Bool.false_ne_true fun ⟨place, contents, h⟩ => hnone place contents h

end FileSystem

/-! ## Mods -/

variable {kept : List Place}

/-- An unpacked mod lies at its root. -/
theorem DirectorySource.settled {s : DirectorySource} (hmem : s.root ∈ kept)
    (hroot : ∀ name ∈ s.root, '/' ∉ name.toList ∧ Path.isName name = true) :
    ModSource.Settled kept s := by
  have hresolve : ∀ {path resolved}, s.resolve path = some resolved →
      resolved = Path.below (absolutePath s.root) path := by
    intro path resolved h
    rw [resolve] at h
    split at h
    · cases h
    · exact (Option.some.inj h).symm
  have hisFile : ∀ {place fs fs'}, Alike place kept fs fs' → ∀ path,
      fs.isFile (Path.below (absolutePath s.root) path) = true →
        fs'.isFile (Path.below (absolutePath s.root) path) = true := by
    intro place fs fs' h path hfile
    obtain ⟨other, contents, hfind⟩ := isFile_eq_true_iff.1 hfile
    exact isFile_eq_true_iff.2 ⟨other, contents, h.find_below hmem hroot hfind⟩
  -- All paths that are asked for lie below the root, where the file systems are alike.
  constructor
  · intro place fs fs' h path
    show (s.resolve path).any fs'.isFile = (s.resolve path).any fs.isFile
    rcases hpath : s.resolve path with _ | resolved
    · rfl
    · rw [hresolve hpath, Option.any_some, Option.any_some]
      exact Bool.eq_iff_iff.2 ⟨hisFile h.symm path, hisFile h path⟩
  · intro place fs fs' h path hhas
    change (s.resolve path).any fs.isFile = true at hhas
    simp only [ModSource.read]
    rcases hpath : s.resolve path with _ | resolved
    · rfl
    · rw [hpath, hresolve hpath, Option.any_some] at hhas
      obtain ⟨other, contents, hfind⟩ := isFile_eq_true_iff.1 hhas
      simp only [hresolve hpath]
      rw [FileSystem.read, FileSystem.read, hfind, h.find_below hmem hroot hfind]
  · intro fs path
    simp only [ModSource.read]
    cases s.resolve path <;> rfl
  · intro place fs fs' h path
    simp only [ModSource.locate, h.workingDirectory]

/-- A packed mod lies where its archive is. -/
theorem ArchiveSource.settled {s : ArchiveSource} (hmem : s.place ∈ kept) :
    ModSource.Settled kept s := by
  have hcontents : ∀ {place fs fs'}, Alike place kept fs fs' → s.contents fs' = s.contents fs := by
    intro place fs fs' h
    have hfile := h.file s.place (.inr ⟨s.place, hmem, List.prefix_rfl⟩)
    rw [contents, contents]
    split
    · next bytes hnode => rw [(hfile bytes).1 hnode]
    · next hnone =>
      split
      · next bytes hnode => exact absurd ((hfile bytes).2 hnode) (hnone bytes)
      · rfl
  constructor
  · intro place fs fs' h path
    simp only [ModSource.has, hcontents h]
  · intro place fs fs' h path _
    simp only [ModSource.read, hcontents h]
  · intro fs path
    simp only [ModSource.read]
    cases s.archive.entry? path <;> rfl
  · exact fun _ _ => rfl

namespace Mod

/-- Where a mod lies. -/
def place : Mod → Place
  | directory s => s.root
  | archive s => s.place

/-- A mod that lies at one of the places is settled there. -/
theorem settled {m : Mod} (hmem : m.place ∈ kept)
    (hplace : ∀ name ∈ m.place, '/' ∉ name.toList ∧ Path.isName name = true) :
    ModSource.Settled kept m := by
  cases m with
  | directory s =>
    have h : ModSource.Settled kept s := DirectorySource.settled hmem hplace
    refine ⟨h.has, fun halike path hhas => h.read halike path hhas, fun fs path => ?_, h.locate⟩
    exact congrArg directory (h.same fs path)
  | archive s =>
    have h : ModSource.Settled kept s := ArchiveSource.settled hmem
    refine ⟨h.has, fun halike path hhas => h.read halike path hhas, fun fs path => ?_, h.locate⟩
    exact congrArg archive (h.same fs path)

end Mod

end Crosswalk
