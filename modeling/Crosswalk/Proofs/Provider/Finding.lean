import Crosswalk.Proofs.Provider.Resources

/-!
# What is found

A resource that is asked for by the path of a class file is looked up by the class, and the class is
looked up by the path of its own file. The two paths are the same exactly if there is no dot in
front of the ending (`ClassName.filePath_normalize_iff`). Otherwise a file that the mod has is not
found unless the mod also has the other one, or the class is ready for another reason
(`Provider.resource_eq_none_iff`).
-/

namespace Crosswalk

/-! ## Paths of class files -/

namespace ClassName

/-- A path is that of a class file if something stands in front of the ending, which is then taken
for the name of the class. -/
theorem ofFilePath?_eq_some_iff {path : String} {name : ClassName} :
    ofFilePath? path = some name ↔
      ∃ stem, stem ≠ "" ∧ path = stem ++ fileEnding ∧ name = normalize stem := by
  have hsuffix : ∀ stem, fileEnding.toList.isSuffixOf? path.toList = some stem ↔
      path = String.ofList stem ++ fileEnding := fun stem => by
    rw [List.isSuffixOf?_eq_some_iff_append_eq, ← String.toList_inj]
    simp [eq_comm]
  constructor
  · intro h
    rw [ofFilePath?] at h
    split at h
    · cases h
    · cases h
    · next stem hne hstem =>
      cases h
      refine ⟨String.ofList stem, fun hempty => ?_, (hsuffix stem).1 hstem, rfl⟩
      rw [← String.toList_inj, String.toList_ofList] at hempty
      exact hne hempty
  · rintro ⟨stem, hne, hpath, rfl⟩
    have hstem := (hsuffix stem.toList).2 (by rw [String.ofList_toList, hpath])
    rw [ofFilePath?, hstem]
    split
    · next hempty => exact absurd (String.toList_inj.1 (Option.some.inj hempty)) hne
    · next hnone => cases hnone
    · next other _ hsame =>
      cases hsame
      rw [String.ofList_toList]

/-- A class is asked for by the path of its file exactly if there is no dot in the name that is read
from the path. -/
theorem filePath_normalize_iff {stem : String} :
    (normalize stem).filePath = stem ++ fileEnding ↔ '.' ∉ stem.toList := by
  constructor
  · intro h
    have htext : (normalize stem).text = stem := by
      have hlist := congrArg String.toList h
      simpa [filePath, String.toList_inj] using hlist
    rw [← htext]
    exact (normalize stem).hasNoDot
  · intro h
    rw [filePath, text_normalize_of_not_mem h]

end ClassName

namespace Provider

variable {σ ρ α : Type}

/-- A lookup answers that there is nothing if nothing is kept and nothing can be made. -/
theorem Shelf.lookup_eq_none_iff {s : Shelf σ ρ α} {name : ClassName}
    {make : Serving σ ρ (Option α)} {p : Provider σ ρ} :
    ((s.lookup name make).run p).1 = .ok none ↔
      name ∉ s.items p ∧ (make.run p).1 = .ok none := by
  have hlooks := looks_lookup s name make p
  generalize (s.lookup name make).run p = outcome at hlooks
  obtain ⟨r, q⟩ := outcome
  cases hlooks with
  | kept hitem =>
    have hmem : name ∈ s.items q := (Std.HashMap.getElem?_eq_some_iff.1 hitem).1
    simp [hmem]
  | made hitem hmake => simp [hmake]
  | missed hitem hmake =>
    have hmem : name ∉ s.items p := (getElem?_eq_none_iff _ _).1 hitem
    simp [hmem, hmake]

variable [ModSource σ] [Renamer ρ]

/-- A class is made ready unless the mod does not have its file, or something fails. -/
theorem transform_eq_none_iff {name : ClassName} {p : Provider σ ρ} :
    ((transform name).run p).1 = .ok none ↔
      ModSource.has p.files p.source name.filePath = false := by
  have htransforms := transforms name p
  generalize (transform name).run p = outcome at htransforms
  obtain ⟨r, q⟩ := outcome
  cases htransforms with
  | absent log hhas => simp [hhas]
  | unreadable log hhas | malformed log hhas | overflow log hhas | ready log files hhas =>
    simp [hhas]

/-- There are no bytes of a class that is not ready and that the mod has no file for. -/
theorem classBytes_eq_none_iff {name : ClassName} {p : Provider σ ρ} :
    ((classBytes name).run p).1 = .ok none ↔
      name ∉ p.classes ∧ ModSource.has p.files p.source name.filePath = false := by
  rw [classBytes_eq, Shelf.lookup_eq_none_iff, transform_eq_none_iff, Shelf.items_ready]

/-- There is no file of a class that is neither in place nor ready and that the mod has no file for.
-/
theorem classResource_eq_none_iff {name : ClassName} {p : Provider σ ρ} :
    ((classResource name).run p).1 = .ok none ↔ name ∉ p.materialized ∧ name ∉ p.classes ∧
      ModSource.has p.files p.source name.filePath = false := by
  rw [classResource_eq_lookup, Shelf.lookup_eq_none_iff, Shelf.items_placed,
    ← classBytes_eq_none_iff]
  refine and_congr_right fun _ => ?_
  rcases hrun : (classBytes name).run p with ⟨e | _ | contents, q⟩
  · rw [run_bind_error hrun]
    exact iff_of_false nofun nofun
  · rw [run_bind_ok hrun]
    exact iff_of_true rfl rfl
  · -- What is put into a file has a location, unless that fails.
    rw [run_bind_ok hrun]
    rcases hsave : q.files.save (Path.below q.settings.tempDirectory name.filePath) contents with
      ⟨files, saved⟩
    rcases run_place_some rfl hsave with ⟨log, -, hplace⟩ | ⟨fault, -, hplace⟩ <;>
    · rw [hplace]
      simp

omit [Renamer ρ] in
/-- A resource that is no class is found if the mod has it. -/
theorem plainResource_ne_none {path : String} {p : Provider σ ρ}
    (h : ModSource.has p.files p.source path = true) :
    ((plainResource path).run p).1 ≠ .ok none := by
  rw [plainResource, run_bind_ok (run_has ..), h]
  show ((dumpResource path >>= _ : Serving σ ρ (Option Location)).run p).1 ≠ _
  rcases hdump : (dumpResource path).run p with ⟨e | _, q⟩
  · rw [run_bind_error hdump]
    simp
  · rw [run_bind_ok hdump, run_bind_ok (run_get q)]
    cases hlocate : ModSource.locate q.files q.source path with
    | error fault => rw [run_bind_error (run_orFail_error ..)]; simp
    | ok location => rw [run_bind_ok (run_orFail_ok ..)]; simp [run_pure]

/-- A file that the mod has is not found exactly if it is taken for that of a class which has its
file somewhere else, where the mod has none, and if that class is not ready for another reason. -/
theorem resource_eq_none_iff {path : String} {p : Provider σ ρ}
    (h : ModSource.has p.files p.source path = true) : ((resource path).run p).1 = .ok none ↔
      ∃ stem, path = stem ++ ClassName.fileEnding ∧ '.' ∈ stem.toList ∧
        ClassName.normalize stem ∉ p.materialized ∧ ClassName.normalize stem ∉ p.classes ∧
        ModSource.has p.files p.source (ClassName.normalize stem).filePath = false := by
  rw [resource]
  cases hname : ClassName.ofFilePath? path with
  | none =>
    refine iff_of_false (plainResource_ne_none h) ?_
    rintro ⟨stem, hpath, hdot, -⟩
    have hne : stem ≠ "" := by
      rintro rfl
      cases hdot
    cases hname.symm.trans (ClassName.ofFilePath?_eq_some_iff.2 ⟨stem, hne, hpath, rfl⟩)
  | some name =>
    obtain ⟨stem, hne, hpath, rfl⟩ := ClassName.ofFilePath?_eq_some_iff.1 hname
    simp only [classResource_eq_none_iff]
    constructor
    · rintro ⟨hplaced, hready, hhas⟩
      refine ⟨stem, hpath, ?_, hplaced, hready, hhas⟩
      by_contra hdot
      rw [ClassName.filePath_normalize_iff.2 hdot, ← hpath, h] at hhas
      cases hhas
    · rintro ⟨other, hother, -, hmissing⟩
      have hsame : other = stem := by
        have hlist := congrArg String.toList (hother.symm.trans hpath)
        simpa [String.toList_inj] using hlist
      rwa [hsame] at hmissing

end Provider

end Crosswalk
