import Mathlib.Data.List.DropRight
import Crosswalk.Proofs.Files.Making

/-!
# File systems that are alike somewhere

Two file systems are alike at a place if they have the same at and below it, and the same files
above it. A directory above the place may be missing in one of the two: a save makes it anyway. So a
save below the place comes to the same in both (`FileSystem.Alike.save`). Besides, they have the
same files below some other places that are kept.
-/

namespace Crosswalk

namespace FileSystem

variable {place : Place} {kept : List Place} {fs fs' fs'' : FileSystem} {here other : Place}
  {s path : String} {names : List String}

/-- It matters whether there is a file: above the place, and at or below those that are kept. -/
def Watched (place : Place) (kept : List Place) (other : Place) : Prop :=
  other <+: place ∨ ∃ root ∈ kept, root <+: other

/-- Two file systems are alike at a place, and have the same files below those that are kept. -/
structure Alike (place : Place) (kept : List Place) (fs fs' : FileSystem) : Prop where
  closed : Closed fs
  closed' : Closed fs'
  workingDirectory : fs'.workingDirectory = fs.workingDirectory
  node : ∀ other, place <+: other → fs'.node? other = fs.node? other
  file : ∀ other, Watched place kept other → ∀ contents,
    fs'.node? other = some (.file contents) ↔ fs.node? other = some (.file contents)

namespace Alike

theorem refl (h : Closed fs) : Alike place kept fs fs :=
  ⟨h, h, rfl, fun _ _ => rfl, fun _ _ _ => .rfl⟩

theorem symm (h : Alike place kept fs fs') : Alike place kept fs' fs where
  closed := h.closed'
  closed' := h.closed
  workingDirectory := h.workingDirectory.symm
  node other hother := (h.node other hother).symm
  file other hother contents := (h.file other hother contents).symm

theorem trans (h : Alike place kept fs fs') (h' : Alike place kept fs' fs'') :
    Alike place kept fs fs'' where
  closed := h.closed
  closed' := h'.closed'
  workingDirectory := h'.workingDirectory.trans h.workingDirectory
  node other hother := (h'.node other hother).trans (h.node other hother)
  file other hother contents := (h'.file other hother contents).trans (h.file other hother contents)

/-- A file system is alike to what it was before something was put into a directory, if that is not
below the place and, where it matters, no more than a new directory. -/
theorem of_insert (h : Closed fs) {target : Place} {node : FileNode}
    (hnode : fs.node? target ≠ some .directory)
    (hparent : fs.node? target.dropLast = some .directory) (hbelow : ¬ place <+: target)
    (hwatched : Watched place kept target → node = .directory ∧ fs.node? target = none) :
    Alike place kept fs (fs.insert target node) := by
  have hne := ne_nil_of_node? hnode
  refine ⟨h, h.insert hnode hparent node, rfl, fun other hother => ?_,
    fun other hother contents => ?_⟩
  · rw [node?_insert _ _ _ _ hne, if_neg]
    rintro rfl
    exact hbelow hother
  · rw [node?_insert _ _ _ _ hne]
    split
    · next hsame =>
      subst hsame
      obtain ⟨rfl, hnone⟩ := hwatched hother
      simp [hnone]
    · rfl

/-- What is put into both is alike. -/
theorem insert (h : Alike place kept fs fs') {target : Place} (hne : target ≠ []) (node : FileNode)
    (hclosed : Closed (fs.insert target node)) (hclosed' : Closed (fs'.insert target node)) :
    Alike place kept (fs.insert target node) (fs'.insert target node) := by
  refine ⟨hclosed, hclosed', h.workingDirectory, fun other hother => ?_,
    fun other hother contents => ?_⟩
  · rw [node?_insert _ _ _ _ hne, node?_insert _ _ _ _ hne, h.node other hother]
  · rw [node?_insert _ _ _ _ hne, node?_insert _ _ _ _ hne]
    split
    · rfl
    · exact h.file other hother contents

/-! ## Making directories in both -/

/-- A directory that only one of two file systems that are alike has can be made in the other one.
-/
theorem of_missing (h : Alike place kept fs fs') {target : Place} (hnone : fs.node? target = none)
    (hparent : fs.node? target.dropLast = some .directory)
    (hdirectory : fs'.node? target = some .directory) :
    Alike place kept (fs.insert target .directory) fs' := by
  refine (of_insert h.closed (by simp [hnone]) hparent (fun hbelow => ?_)
    fun _ => ⟨rfl, hnone⟩).symm.trans h
  cases hnone.symm.trans ((h.node target hbelow).symm.trans hdirectory)

/-- A further segment is made in both alike if a file stands there in both or in none. -/
theorem makeNext (h : Alike place kept fs fs') (hhere : fs.node? here = some .directory)
    (hhere' : fs'.node? here = some .directory)
    (hfile : ∀ contents, fs'.node? (here ++ [s]) = some (.file contents) ↔
      fs.node? (here ++ [s]) = some (.file contents)) :
    (FileSystem.makeNext (fs', .ok here) s).2 = (FileSystem.makeNext (fs, .ok here) s).2 ∧
      Alike place kept (FileSystem.makeNext (fs, .ok here) s).1
        (FileSystem.makeNext (fs', .ok here) s).1 := by
  have hparent : fs.node? (here ++ [s]).dropLast = some .directory := by
    rwa [List.dropLast_concat]
  have hparent' : fs'.node? (here ++ [s]).dropLast = some .directory := by
    rwa [List.dropLast_concat]
  have hne : here ++ [s] ≠ [] := by simp
  simp only [FileSystem.makeNext]
  split
  · exact ⟨rfl, h⟩
  · rcases hnode : fs.node? (here ++ [s]) with _ | _ | contents <;>
      rcases hnode' : fs'.node? (here ++ [s]) with _ | _ | contents'
    · refine ⟨rfl, h.insert hne _ (h.closed.insert ?_ hparent _) (h.closed'.insert ?_ hparent' _)⟩
      · simp [hnode]
      · simp [hnode']
    · exact ⟨rfl, h.of_missing hnode hparent hnode'⟩
    · cases hnode.symm.trans ((hfile contents').1 hnode')
    · exact ⟨rfl, (h.symm.of_missing hnode' hparent' hnode).symm⟩
    · exact ⟨rfl, h⟩
    · cases hnode.symm.trans ((hfile contents').1 hnode')
    · cases hnode'.symm.trans ((hfile contents).2 hnode)
    · cases hnode'.symm.trans ((hfile contents).2 hnode)
    · exact ⟨rfl, h⟩

/-- Directories are made alike in two file systems that are alike and have the same files on the
way. -/
theorem makeAll (h : Alike place kept fs fs') (hhere : fs.node? here = some .directory)
    (hhere' : fs'.node? here = some .directory) (hnames : ∀ s ∈ names, Path.isName s = true)
    (hfile : ∀ other, other <+: here ++ names → ∀ contents,
      fs'.node? other = some (.file contents) ↔ fs.node? other = some (.file contents)) :
    (fs'.makeAll here names).2 = (fs.makeAll here names).2 ∧
      Alike place kept (fs.makeAll here names).1 (fs'.makeAll here names).1 := by
  induction names using List.reverseRecOn with
  | nil => exact ⟨rfl, h⟩
  | append_singleton front s ih =>
    have hfront : ∀ s ∈ front, Path.isName s = true :=
      fun s hs => hnames s (List.mem_append_left _ hs)
    have hopens := opens_makeAll fs here front
    have hopens' := opens_makeAll fs' here front
    obtain ⟨hsame, halike⟩ := ih hfront fun other hother =>
      hfile other (by rw [← List.append_assoc]; exact hother.trans (List.prefix_append _ _))
    rw [makeAll_concat, makeAll_concat]
    rcases hmake : fs.makeAll here front with ⟨made, r⟩
    rcases hmake' : fs'.makeAll here front with ⟨made', r'⟩
    rw [hmake, hmake'] at halike hsame
    rw [hmake] at hopens
    rw [hmake'] at hopens'
    change r' = r at hsame
    subst hsame
    cases r' with
    | error e => cases e <;> exact ⟨rfl, halike⟩
    | ok there =>
      obtain ⟨rfl, hthere, -⟩ := made_of_makeAll hhere hfront hmake
      obtain ⟨-, hthere', -⟩ := made_of_makeAll hhere' hfront hmake'
      refine halike.makeNext hthere hthere' fun contents => ?_
      -- Only directories have been made on the way.
      rw [hopens'.file, hopens.file]
      rw [List.append_assoc]
      exact hfile _ List.prefix_rfl contents

end Alike

/-! ## Saving in both -/

/-- Steps to the current directory lead nowhere in front of another step. -/
theorem walk_filter (fs : FileSystem) (here : Place) (l : List String) (s : String) :
    fs.walk here (l ++ [s]) = fs.walk here (l.filter (· != ".") ++ [s]) := by
  induction l generalizing here with
  | nil => rfl
  | cons first rest ih =>
    by_cases hfirst : first = "."
    · subst hfirst
      rw [List.filter_cons_of_neg (by simp), ← ih]
      cases rest <;>
      · simp only [List.cons_append, List.nil_append, walk]
        split <;> simp_all
    · rw [List.filter_cons_of_pos (by simpa using hfirst), List.cons_append, List.cons_append, walk,
        walk, ih, ih, ih]

/-- A path leads to a place, where there may be nothing: as far as its last step that is no name it
leads to a directory, and the names behind it lead on to the place. -/
def Reaches (fs : FileSystem) (path : String) (place : Place) : Prop :=
  ∃ here, fs.walk (fs.origin path) ((Path.significant path).rdropWhile Path.isName) = .ok here ∧
    fs.node? here = some .directory ∧
    place = here ++ (Path.significant path).rtakeWhile Path.isName

/-- A path of names leads to a place in any case. -/
theorem reaches_of_names (h : Closed fs)
    (hnames : ∀ s ∈ Path.significant path, Path.isName s = true) :
    fs.Reaches path (fs.origin path ++ Path.significant path) := by
  refine ⟨fs.origin path, ?_, ?_, ?_⟩
  · rw [List.rdropWhile_eq_nil_iff.2 hnames, walk]
  · rw [origin]
    split
    · rfl
    · exact h.workingDirectory
  · rw [List.rtakeWhile_eq_self_iff.2 hnames]

/-- What can be reached can still be reached when files are added. -/
theorem Reaches.grows (h : fs.Reaches path place) (hgrows : Grows fs fs') :
    fs'.Reaches path place := by
  obtain ⟨here, hwalk, hdirectory, hplace⟩ := h
  refine ⟨here, ?_, hgrows.directory here hdirectory, hplace⟩
  rw [origin, hgrows.workingDirectory]
  exact hgrows.walk hwalk

/-- A path below a base taken apart: the segments of the base as far as the last one that is no
name, the names behind it, those of the directories below the base, and that of the file. -/
structure Below (base path : String) (up own front : List String) (s : String) : Prop where
  base : Path.significant base = up ++ own
  own : ∀ s ∈ own, Path.isName s = true
  path : Path.names path = front ++ [s]

namespace Below

variable {base : String} {up own front : List String}

/-- A path with names leads below the base. -/
theorem of_names_ne_nil (base : String) (hnames : Path.names path ≠ []) :
    ∃ front s, Below base path ((Path.significant base).rdropWhile Path.isName)
      ((Path.significant base).rtakeWhile Path.isName) front s := by
  obtain ⟨front, s, hpath⟩ := (List.eq_nil_or_concat' (Path.names path)).resolve_left hnames
  exact ⟨front, s, List.rdropWhile_append_rtakeWhile.symm, fun _ => List.mem_rtakeWhile_imp, hpath⟩

variable (h : Below base path up own front s)
include h

/-- The last segment is a name. -/
theorem isName : Path.isName s = true :=
  (Path.isName_of_mem_names (h.path ▸ List.mem_append_right front (List.mem_singleton_self s))).2

/-- So are those in front of it, as far as they are below the base. -/
theorem all_names : ∀ s ∈ own ++ front, Path.isName s = true := by
  intro s hs
  rcases List.mem_append.1 hs with hs | hs
  · exact h.own s hs
  · exact (Path.isName_of_mem_names (h.path ▸ List.mem_append_left _ hs)).2

/-- The path has these segments. -/
theorem significant : Path.significant (Path.below base path) = up ++ (own ++ front) ++ [s] := by
  rw [Path.significant_below, h.base, h.path]
  simp

/-- None of them is empty, and none has a slash. -/
theorem segments : ∀ s ∈ up ++ (own ++ front), '/' ∉ s.toList ∧ s ≠ "" := by
  have htidy := Path.tidy_significant (Path.below base path)
  rw [h.significant] at htidy
  exact htidy.front.segment

/-- The directories for a save below a base are made from where the last step up has led. -/
theorem opened (hclosed : Closed fs) (hup : fs.walk (fs.origin base) up = .ok here)
    (hhere : fs.node? here = some .directory)
    (hrefusal : up ++ (own ++ front) = [] ∨
      refusal? (Path.ofSegments (Path.isAbsolute base) (up ++ (own ++ front))) = none) :
    fs.opened (Path.below base path) = outcome (fs.makeAll here (own ++ front)) := by
  rw [opened_eq fs h.significant, Path.isAbsolute_below]
  exact createAlong_chain hclosed h.segments h.all_names hup hhere hrefusal

/-- Where the directory of the file is refused, nothing is made. -/
theorem opened_of_refusal (hne : up ++ (own ++ front) ≠ []) {e : FileFault}
    (he : refusal? (Path.ofSegments (Path.isAbsolute base) (up ++ (own ++ front))) = some e)
    (fs : FileSystem) : fs.opened (Path.below base path) = (fs, .error e) := by
  rw [opened_eq fs h.significant, Path.isAbsolute_below]
  exact createAlong_of_refusal h.segments hne he

/-- Where a path below a base leads once all directories on the way have been made. -/
theorem place_of_made {made : FileSystem} {there : Place}
    (hup : made.walk (made.origin base) up = .ok here)
    (hmade : Made fs here (own ++ front) made there) :
    made.place (Path.below base path) =
      match refusal? (Path.below base path) with
      | some e => .error e
      | none => if nameLimit < s.utf8ByteSize then .error .nameTooLong else .ok (there ++ [s]) := by
  have hne : Path.names path ≠ [] := by simp [h.path]
  have hsteps : steps (Path.below base path) = Path.parts base ++ front ++ [s] := by
    rw [steps, if_neg (by simpa using Path.getLast?_below base hne), List.append_nil,
      List.append_assoc, ← h.path]
    exact Path.parts_below base path
  -- The segments that count lead to the same place as all parts of the path.
  have hfilter : (Path.parts base ++ front).filter (· != ".") =
      (Path.significant base ++ front).filter (· != ".") := by
    rw [List.filter_append, List.filter_append, Path.significant_eq]
    split <;> simp
  have hend : made.walk (made.origin base) (Path.significant base ++ front ++ [s]) =
      if nameLimit < s.utf8ByteSize then .error .nameTooLong else .ok (there ++ [s]) := by
    rw [h.base, List.append_assoc up, walk_append _ _ (up ++ (own ++ front)),
      walk_append _ _ up, hup]
    show made.walk here (own ++ front) >>= _ = _
    rw [hmade.walk]
    exact walk_name hmade.directory h.isName
  rw [place_eq]
  cases refusal? (Path.below base path) with
  | some e => rfl
  | none =>
    show made.walk (made.origin (Path.below base path)) (steps (Path.below base path)) = _
    rw [origin, Path.isAbsolute_below, ← origin, hsteps, walk_filter, hfilter, ← walk_filter]
    exact hend

/-- The save goes to the place of its file if the directories for it could be made. -/
theorem place_of_makeAll (hup : fs.walk (fs.origin base) up = .ok here)
    (hhere : fs.node? here = some .directory) {made : FileSystem} {there : Place}
    (hmake : fs.makeAll here (own ++ front) = (made, .ok there)) :
    made.place (Path.below base path) =
      match refusal? (Path.below base path) with
      | some e => .error e
      | none => if nameLimit < s.utf8ByteSize then .error .nameTooLong else .ok (there ++ [s]) := by
  have hopens := opens_makeAll fs here (own ++ front)
  rw [hmake] at hopens
  refine h.place_of_made ?_ (made_of_makeAll hhere h.all_names hmake)
  rw [origin, hopens.workingDirectory]
  exact hopens.toGrows.walk hup

end Below

/-- Without its directory no file is saved. -/
theorem save_of_failed {made : FileSystem} {e : FileFault} (h : fs.opened path = (made, .error e))
    (contents : Bytes) : fs.save path contents = (made, .error e) := by
  rw [save_eq, h]

/-- A save once the directories for it have been made. -/
theorem save_of_opened {made : FileSystem} (h : fs.opened path = (made, .ok ()))
    (contents : Bytes) :
    fs.save path contents =
      match made.place path with
      | .error e => (made, .error e)
      | .ok target =>
        if made.node? target = some .directory then (made, .error .isADirectory)
        else (made.insert target (.file contents), .ok ()) := by
  rw [save_eq, h]
  simp only
  rcases hplace : made.place path with e | target
  · rw [write, hplace]
    rfl
  · rw [write_of_place hplace]
    by_cases hnode : made.node? target = some .directory
    · simp only [if_pos hnode]
    · simp only [if_neg hnode]

/-- Where the directories for a save have been made alike and its path leads to the same file at or
below the place, the save does the same. -/
theorem Alike.save_of_opened {made made' : FileSystem} {r : Except FileFault Unit}
    (h : Alike place kept made made') (hopened : fs.opened path = (made, r))
    (hopened' : fs'.opened path = (made', r))
    (hpath : r = .ok () → made'.place path = made.place path ∧
      ∀ target, made.place path = .ok target → place <+: target ∧
        made.node? target.dropLast = some .directory ∧
        made'.node? target.dropLast = some .directory) (contents : Bytes) :
    (fs'.save path contents).2 = (fs.save path contents).2 ∧
      Alike place kept (fs.save path contents).1 (fs'.save path contents).1 := by
  cases r with
  | error e =>
    rw [save_of_failed hopened, save_of_failed hopened']
    exact ⟨rfl, h⟩
  | ok _ =>
    obtain ⟨hsame, htarget⟩ := hpath rfl
    rw [FileSystem.save_of_opened hopened, FileSystem.save_of_opened hopened', hsame]
    cases hplace : made.place path with
    | error e => exact ⟨rfl, h⟩
    | ok target =>
      obtain ⟨hbelow, hparent, hparent'⟩ := htarget target hplace
      have hnode := h.node target hbelow
      simp only [hnode]
      by_cases hdirectory : made.node? target = some .directory
      · simp only [if_pos hdirectory]
        exact ⟨trivial, h⟩
      · simp only [if_neg hdirectory]
        refine ⟨trivial,
          h.insert (ne_nil_of_node? hdirectory) _ (h.closed.insert hdirectory hparent _) ?_⟩
        exact h.closed'.insert (hnode ▸ hdirectory) hparent' _

/-- The same is saved below the place in two file systems that are alike, or fails for the same
reason. -/
theorem Alike.save (h : Alike place kept fs fs') {base : String} (hbase : fs.Reaches base place)
    (hbase' : fs'.Reaches base place) (hnames : Path.names path ≠ []) (contents : Bytes) :
    (fs'.save (Path.below base path) contents).2 = (fs.save (Path.below base path) contents).2 ∧
      Alike place kept (fs.save (Path.below base path) contents).1
        (fs'.save (Path.below base path) contents).1 := by
  obtain ⟨here, hup, hhere, rfl⟩ := hbase
  obtain ⟨here', hup', hhere', hsame⟩ := hbase'
  obtain rfl := List.append_cancel_right hsame
  obtain ⟨front, s, hbelow⟩ := Below.of_names_ne_nil base hnames
  generalize (Path.significant base).rdropWhile Path.isName = up at hup hup' hbelow
  generalize (Path.significant base).rtakeWhile Path.isName = own at hbelow hsame h
  by_cases hrefused : up ++ (own ++ front) = [] ∨
    refusal? (Path.ofSegments (Path.isAbsolute base) (up ++ (own ++ front))) = none
  · have hfile : ∀ other, other <+: here ++ (own ++ front) → ∀ contents,
        fs'.node? other = some (.file contents) ↔ fs.node? other = some (.file contents) := by
      intro other hother contents
      -- What is on the way lies above the place, or at or below it.
      rw [← List.append_assoc] at hother
      rcases List.prefix_or_prefix_of_prefix hother (List.prefix_append (here ++ own) front) with
        habove | hunder
      · exact h.file other (.inl habove) contents
      · rw [h.node other hunder]
    obtain ⟨hresult, halike⟩ := h.makeAll hhere hhere' hbelow.all_names hfile
    have hopened := hbelow.opened h.closed hup hhere hrefused
    have hopened' := hbelow.opened h.closed' hup' hhere' hrefused
    rcases hmake : fs.makeAll here (own ++ front) with ⟨made, r⟩
    rcases hmake' : fs'.makeAll here (own ++ front) with ⟨made', r'⟩
    rw [hmake, hmake'] at hresult halike
    rw [hmake] at hopened
    rw [hmake'] at hopened'
    change r' = r at hresult
    subst hresult
    refine halike.save_of_opened hopened hopened' (fun hok => ?_) contents
    cases r' with
    | error e => cases hok
    | ok there =>
      obtain ⟨hthere, hdirectory, -⟩ := made_of_makeAll hhere hbelow.all_names hmake
      obtain ⟨-, hdirectory', -⟩ := made_of_makeAll hhere' hbelow.all_names hmake'
      have hend := hbelow.place_of_makeAll hup hhere hmake
      have hend' := hbelow.place_of_makeAll hup' hhere' hmake'
      refine ⟨hend'.trans hend.symm, fun target htarget => ?_⟩
      rw [hend] at htarget
      split at htarget
      · cases htarget
      · split at htarget
        · cases htarget
        · cases htarget
          rw [List.dropLast_concat]
          refine ⟨?_, hdirectory, hdirectory'⟩
          rw [hthere]
          exact ⟨front ++ [s], by simp⟩
  · rw [not_or] at hrefused
    obtain ⟨e, he⟩ := Option.ne_none_iff_exists'.1 hrefused.2
    exact h.save_of_opened (hbelow.opened_of_refusal hrefused.1 he fs)
      (hbelow.opened_of_refusal hrefused.1 he fs') nofun contents

end FileSystem

end Crosswalk
