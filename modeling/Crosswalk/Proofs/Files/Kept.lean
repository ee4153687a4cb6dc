import Mathlib.Data.Fintype.EquivFin
import Crosswalk.Proofs.Files.Apart

/-!
# Files that are kept

Two file systems have the same files at some places if no file at or below one of them tells the two
apart (`FileSystem.SameFiles`). Saves that land elsewhere make no difference there
(`FileSystem.SameFiles.save`), whatever directories they leave on their way. Such file systems are
alike at a place where neither of them has anything, and there always is one
(`FileSystem.SameFiles.exists_alike`).
-/

namespace Crosswalk

namespace FileSystem

variable {kept : List Place} {fs fs' fs'' : FileSystem} {place : Place} {path : String}

/-! ## Everything lies in a directory -/

/-- A directory is made in another one. -/
theorem Closed.create (h : Closed fs) {made : FileSystem} (hcreate : fs.create path = .ok made) :
    Closed made := by
  obtain ⟨target, hplace, hnone, rfl⟩ := create_eq_ok_iff.1 hcreate
  exact h.insert (by simp [hnone]) (h.parent hplace) _

/-- All directories that are made for a save lie in others. -/
theorem Closed.opened (h : Closed fs) (path : String) : Closed (fs.opened path).1 := by
  rw [FileSystem.opened]
  split
  · refine createAlong_induct (r := fun fs made => Closed fs → Closed made) (fun _ => id) ?_ ?_ fs h
    · exact fun hfirst hsecond hclosed => hsecond (hfirst hclosed)
    · exact fun _ _ _ _ hcreate hclosed => hclosed.create hcreate
  · exact h

/-- What is saved lies in a directory. -/
theorem Closed.save (h : Closed fs) (path : String) (contents : Bytes) :
    Closed (fs.save path contents).1 := by
  have hopened := h.opened path
  cases hlanding : fs.landing? path with
  | none =>
    obtain ⟨e, hsave⟩ := save_of_no_landing hlanding contents
    rw [hsave]
    exact hopened
  | some target =>
    obtain ⟨hsave, hplace, hnode⟩ := save_of_landing hlanding contents
    rw [hsave]
    exact hopened.insert hnode (hopened.parent hplace) _

/-! ## The same files -/

/-- Two file systems in which everything lies in a directory have the same files at and below some
places. -/
structure SameFiles (kept : List Place) (fs fs' : FileSystem) : Prop where
  closed : Closed fs
  closed' : Closed fs'
  workingDirectory : fs'.workingDirectory = fs.workingDirectory
  file : ∀ root ∈ kept, ∀ other, root <+: other → ∀ contents,
    fs'.node? other = some (.file contents) ↔ fs.node? other = some (.file contents)

namespace SameFiles

theorem refl (h : Closed fs) : SameFiles kept fs fs :=
  ⟨h, h, rfl, fun _ _ _ _ _ => .rfl⟩

theorem symm (h : SameFiles kept fs fs') : SameFiles kept fs' fs where
  closed := h.closed'
  closed' := h.closed
  workingDirectory := h.workingDirectory.symm
  file root hroot other hother contents := (h.file root hroot other hother contents).symm

theorem trans (h : SameFiles kept fs fs') (h' : SameFiles kept fs' fs'') :
    SameFiles kept fs fs'' where
  closed := h.closed
  closed' := h'.closed'
  workingDirectory := h'.workingDirectory.trans h.workingDirectory
  file root hroot other hother contents :=
    (h'.file root hroot other hother contents).trans (h.file root hroot other hother contents)

/-- A save that leads elsewhere leaves the files as they are. -/
theorem save (h : Closed fs)
    (hlead : ∀ root ∈ kept, ¬ root <+: lead (fs.origin path) (Path.significant path))
    (contents : Bytes) : SameFiles kept fs (fs.save path contents).1 := by
  refine ⟨h, h.save path contents, (grows_save fs path contents).workingDirectory, ?_⟩
  intro root hroot other hother contents'
  rw [node?_save_eq_file_iff, if_neg]
  intro hlanding
  obtain ⟨-, hplace, -⟩ := save_of_landing hlanding contents
  have hother' := eq_lead_of_place hplace
  rw [origin, (opens_opened fs path).workingDirectory, ← origin] at hother'
  exact hlead root hroot (hother' ▸ hother)

/-- So do saves one after the other. -/
theorem saveAll {saves : List Saving} (h : Closed fs) (hlead : ∀ s ∈ saves, ∀ root ∈ kept,
    ¬ root <+: lead (fs.origin s.path) (Path.significant s.path)) :
    SameFiles kept fs (fs.saveAll saves) := by
  induction saves generalizing fs with
  | nil => exact .refl h
  | cons s rest ih =>
    have hfirst := save h (hlead s List.mem_cons_self) s.contents
    refine hfirst.trans (ih hfirst.closed' fun other hother => ?_)
    rw [origin, hfirst.workingDirectory, ← origin]
    exact hlead other (List.mem_cons_of_mem _ hother)

/-! ## A place for both -/

/-- There is a name that two file systems have nothing at. -/
theorem exists_fresh (fs fs' : FileSystem) :
    ∃ s, fs.node? [s] = none ∧ fs'.node? [s] = none := by
  obtain ⟨s, hs⟩ := Infinite.exists_notMem_finset
    (fs.nodes.keys ++ fs'.nodes.keys).flatten.toFinset
  rw [List.mem_toFinset, List.flatten_append, List.mem_append, not_or] at hs
  have hnone : ∀ nodes : Std.HashMap Place FileNode, s ∉ nodes.keys.flatten →
      nodes[[s]]? = none := by
    intro nodes hnot
    refine Std.HashMap.getElem?_eq_none fun hmem => hnot ?_
    exact List.mem_flatten.2 ⟨[s], Std.HashMap.mem_keys.2 hmem, List.mem_singleton_self s⟩
  have hne : [s] ≠ [] := List.cons_ne_nil _ _
  exact ⟨s, (if_neg hne).trans (hnone _ hs.1), (if_neg hne).trans (hnone _ hs.2)⟩

/-- There is nothing below a place that has nothing. -/
theorem node?_eq_none_below (h : Closed fs) (hnone : fs.node? place = none) {other : Place}
    (hother : place <+: other) : fs.node? other = none := by
  obtain ⟨more, rfl⟩ := hother
  rcases eq_or_ne more [] with rfl | hmore
  · rwa [List.append_nil]
  · rw [Option.eq_none_iff_forall_ne_some]
    intro node hnode
    cases hnone.symm.trans (h.directory hmore hnode)

/-- File systems with the same files are alike somewhere. -/
theorem exists_alike (h : SameFiles kept fs fs') : ∃ place, Alike place kept fs fs' := by
  obtain ⟨s, hs, hs'⟩ := exists_fresh fs fs'
  refine ⟨[s], h.closed, h.closed', h.workingDirectory, fun other hother => ?_, ?_⟩
  · rw [node?_eq_none_below h.closed hs hother, node?_eq_none_below h.closed' hs' hother]
  · rintro other (habove | ⟨root, hroot, hother⟩) contents
    · -- Above the name there is nothing but the root, which is no file.
      rcases List.prefix_cons_iff.1 habove with rfl | ⟨more, rfl, hmore⟩
      · exact .rfl
      · rw [List.prefix_nil.1 hmore, hs, hs']
    · exact h.file root hroot other hother contents

end SameFiles

end FileSystem

end Crosswalk
