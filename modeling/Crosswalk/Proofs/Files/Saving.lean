import Crosswalk.Proofs.Files.Paths
import Crosswalk.Proofs.Outcome

/-!
# What saving does

A save makes the directories above a file and puts the contents into it
(`FileSystem.save_of_landing`), or makes some directories and fails. Directories stay, so a path
leads after a save where it has led before (`FileSystem.Grows`), and a file that is saved into again
holds what came last (`FileSystem.find_saveAll`). What lies below the same base is in the same file
only if the names behind the base are the same (`FileSystem.names_eq_of_place`).
-/

namespace Crosswalk

namespace FileSystem

variable {fs fs' : FileSystem} {path : String}

/-! ## Walking -/

/-- Where a path starts. -/
def origin (fs : FileSystem) (path : String) : Place :=
  if Path.isAbsolute path then [] else fs.workingDirectory

/-- Where a segment leads from a directory. -/
def stride (here : Place) (segment : String) : Except FileFault Place :=
  if segment = "." then .ok here
  else if segment = ".." then .ok here.dropLast
  else if nameLimit < segment.utf8ByteSize then .error .nameTooLong
  else .ok (here ++ [segment])

/-- A walk starts from a directory, and goes on behind the first step. -/
theorem walk_cons_eq_ok_iff {here place : Place} {segment : String} {rest : List String} :
    fs.walk here (segment :: rest) = .ok place ↔ fs.node? here = some .directory ∧
      ∃ next, stride here segment = .ok next ∧ fs.walk next rest = .ok place := by
  rw [walk, stride]
  cases fs.node? here with
  | none => simp
  | some node =>
    cases node with
    | file _ => simp
    | directory =>
      simp only [true_and]
      split
      · simp
      · split
        · simp
        · split <;> simp

/-- A walk goes on where its first part has led. -/
theorem walk_append_eq_ok_iff {here place : Place} {a b : List String} :
    fs.walk here (a ++ b) = .ok place ↔
      ∃ mid, fs.walk here a = .ok mid ∧ fs.walk mid b = .ok place := by
  induction a generalizing here with
  | nil => simp [walk]
  | cons segment rest ih =>
    simp only [List.cons_append, walk_cons_eq_ok_iff, ih]
    constructor
    · rintro ⟨hnode, next, hnext, mid, hmid, hplace⟩
      exact ⟨mid, ⟨hnode, next, hnext, hmid⟩, hplace⟩
    · rintro ⟨mid, ⟨hnode, next, hnext, hmid⟩, hplace⟩
      exact ⟨hnode, next, hnext, mid, hmid, hplace⟩

/-- Names lead downwards. -/
theorem walk_names {here place : Place} {l : List String} (hl : ∀ s ∈ l, Path.isName s = true)
    (h : fs.walk here l = .ok place) : place = here ++ l := by
  induction l generalizing here with
  | nil =>
    cases h
    exact (List.append_nil _).symm
  | cons segment rest ih =>
    have hname := hl segment List.mem_cons_self
    simp only [Path.isName, Bool.and_eq_true, bne_iff_ne] at hname
    obtain ⟨-, next, hnext, hrest⟩ := walk_cons_eq_ok_iff.1 h
    rw [stride, if_neg hname.1.2, if_neg hname.2] at hnext
    split at hnext
    · cases hnext
    · cases hnext
      rw [ih (fun s hs => hl s (List.mem_cons_of_mem _ hs)) hrest, List.append_assoc]
      rfl

/-- Names lead on as long as there are directories. -/
theorem walk_of_directories {here : Place} {l : List String}
    (hl : ∀ s ∈ l, Path.isName s = true ∧ s.utf8ByteSize ≤ nameLimit)
    (hdirectories : ∀ n < l.length, fs.node? (here ++ l.take n) = some .directory) :
    fs.walk here l = .ok (here ++ l) := by
  induction l generalizing here with
  | nil => rw [walk, List.append_nil]
  | cons segment rest ih =>
    obtain ⟨hname, hlimit⟩ := hl segment List.mem_cons_self
    simp only [Path.isName, Bool.and_eq_true, bne_iff_ne] at hname
    have hnode := hdirectories 0 (Nat.succ_pos _)
    rw [List.take_zero, List.append_nil] at hnode
    refine walk_cons_eq_ok_iff.2 ⟨hnode, here ++ [segment], ?_, ?_⟩
    · rw [stride, if_neg hname.1.2, if_neg hname.2, if_neg (Nat.not_lt.2 hlimit)]
    · rw [ih (fun s hs => hl s (List.mem_cons_of_mem _ hs)) fun n hn => ?_, List.append_assoc]
      · rfl
      · have hnext := hdirectories (n + 1) (Nat.succ_lt_succ hn)
        rwa [List.take_succ_cons, ← List.singleton_append, ← List.append_assoc] at hnext

/-- The place of a path is where a walk along its segments leads. -/
theorem walk_of_place {place : Place} (h : fs.place path = .ok place) :
    fs.walk (fs.origin path) (steps path) = .ok place := by
  rw [FileSystem.place] at h
  split at h
  · cases h
  · split at h
    · cases h
    · split at h
      · cases h
      · exact h

/-- The path is made of these names and nothing else, and is not too long. -/
structure Spells (path : String) (names : List String) : Prop where
  text : path.toList.contains '\x00' = false ∧ path.isEmpty = false ∧ path.utf8ByteSize < pathLimit
  steps : steps path = names
  names : ∀ s ∈ names, Path.isName s = true ∧ s.utf8ByteSize ≤ nameLimit

/-- A path of names leads along them as long as there are directories. -/
theorem place_of_spells {names : List String} (h : Spells path names)
    (hdirectories : ∀ n < names.length, fs.node? (fs.origin path ++ names.take n) =
      some .directory) :
    fs.place path = .ok (fs.origin path ++ names) := by
  obtain ⟨⟨hnull, hempty, hlimit⟩, hsteps, hnames⟩ := h
  rw [place, hnull, hempty, if_neg (by simp), if_neg (by simp),
    if_neg (Nat.not_le.2 hlimit), hsteps]
  exact walk_of_directories hnames hdirectories

/-- A path that goes on below a base leads to the place of the base, and from there along the names
it goes on with. -/
theorem place_below {base : String} {place : Place} (hnames : Path.names path ≠ [])
    (h : fs.place (Path.below base path) = .ok place) :
    ∃ root, fs.walk (fs.origin base) (Path.parts base) = .ok root ∧
      place = root ++ Path.names path := by
  have hwalk := walk_of_place h
  have hsteps : steps (Path.below base path) = Path.parts base ++ Path.names path := by
    rw [steps, if_neg (by simpa using Path.getLast?_below base hnames), List.append_nil]
    exact Path.parts_below base path
  rw [origin, Path.isAbsolute_below, ← origin, hsteps] at hwalk
  obtain ⟨root, hroot, hrest⟩ := walk_append_eq_ok_iff.1 hwalk
  exact ⟨root, hroot, walk_names (fun s hs => (Path.isName_of_mem_names hs).2) hrest⟩

/-! ## Growing -/

/-- Where there is no directory, there is not the root. -/
theorem ne_nil_of_node? {place : Place} (h : fs.node? place ≠ some .directory) : place ≠ [] := by
  rintro rfl
  exact h rfl

/-- Directories stay where they are. -/
structure Grows (fs fs' : FileSystem) : Prop where
  workingDirectory : fs'.workingDirectory = fs.workingDirectory
  directory : ∀ place, fs.node? place = some .directory → fs'.node? place = some .directory

namespace Grows

theorem refl (fs : FileSystem) : Grows fs fs :=
  ⟨rfl, fun _ => id⟩

theorem trans {fs'' : FileSystem} (h : Grows fs fs') (h' : Grows fs' fs'') : Grows fs fs'' where
  workingDirectory := h'.workingDirectory.trans h.workingDirectory
  directory place hplace := h'.directory place (h.directory place hplace)

/-- A walk stays possible when something is added. -/
theorem walk (h : Grows fs fs') {here place : Place} {l : List String}
    (hwalk : fs.walk here l = .ok place) : fs'.walk here l = .ok place := by
  induction l generalizing here with
  | nil => exact hwalk
  | cons segment rest ih =>
    obtain ⟨hnode, next, hnext, hrest⟩ := walk_cons_eq_ok_iff.1 hwalk
    exact walk_cons_eq_ok_iff.2 ⟨h.directory here hnode, next, hnext, ih hrest⟩

/-- A file may take the place of anything but a directory. -/
theorem insert {place : Place} (h : fs.node? place ≠ some .directory) (node : FileNode) :
    Grows fs (fs.insert place node) := by
  refine ⟨rfl, fun other hother => ?_⟩
  have hsame : place ≠ other := by
    rintro rfl
    exact h hother
  rw [node?_insert _ _ _ _ (ne_nil_of_node? h), if_neg hsame]
  exact hother

/-- A path leads where it has led before. -/
theorem place (h : Grows fs fs') {place : Place} (hplace : fs.place path = .ok place) :
    fs'.place path = .ok place := by
  rw [FileSystem.place] at hplace ⊢
  rw [h.workingDirectory]
  split at hplace
  · cases hplace
  · split at hplace
    · cases hplace
    · split at hplace
      · cases hplace
      · next hnull hempty hlimit =>
        rw [if_neg hnull, if_neg hempty, if_neg hlimit]
        exact h.walk hplace

end Grows

/-- Two paths below the same base lead to the same place only along the same names. -/
theorem names_eq_of_place {base path' : String} {place : Place} (h : Grows fs fs')
    (hnames : Path.names path ≠ []) (hnames' : Path.names path' ≠ [])
    (hplace : fs.place (Path.below base path) = .ok place)
    (hplace' : fs'.place (Path.below base path') = .ok place) :
    Path.names path = Path.names path' := by
  obtain ⟨root, hroot, rfl⟩ := place_below hnames hplace
  obtain ⟨root', hroot', hsame⟩ := place_below hnames' hplace'
  -- The base still leads to its old place, since none of the directories on the way is gone.
  rw [origin, h.workingDirectory, ← origin, h.walk hroot] at hroot'
  cases hroot'
  exact List.append_cancel_left hsame

/-! ## Making directories -/

/-- Nothing happens but that directories are made. -/
structure Opens (fs fs' : FileSystem) : Prop extends Grows fs fs' where
  file : ∀ place contents, fs'.node? place = some (.file contents) ↔
    fs.node? place = some (.file contents)

namespace Opens

theorem refl (fs : FileSystem) : Opens fs fs :=
  ⟨.refl fs, fun _ _ => .rfl⟩

theorem trans {fs'' : FileSystem} (h : Opens fs fs') (h' : Opens fs' fs'') : Opens fs fs'' where
  toGrows := h.toGrows.trans h'.toGrows
  file place contents := (h'.file place contents).trans (h.file place contents)

/-- A directory may be added where there was nothing. -/
theorem insert {place : Place} (h : fs.node? place = none) :
    Opens fs (fs.insert place .directory) := by
  have hnode : fs.node? place ≠ some .directory := by simp [h]
  refine ⟨.insert hnode _, fun other contents => ?_⟩
  rw [node?_insert _ _ _ _ (ne_nil_of_node? hnode)]
  split
  · next hsame =>
    rw [← hsame, h]
    simp
  · rfl

end Opens

/-- A directory is made where nothing is, and only if the way to it is there. -/
theorem create_eq_ok_iff {made : FileSystem} : fs.create path = .ok made ↔
    ∃ place, fs.place path = .ok place ∧ fs.node? place = none ∧
      made = fs.insert place .directory := by
  rw [create, bind_eq_ok_iff]
  refine exists_congr fun place => and_congr_right fun _ => ?_
  cases fs.node? place with
  | none =>
    constructor
    · rintro ⟨⟩
      exact ⟨rfl, rfl⟩
    · rintro ⟨-, rfl⟩
      rfl
  | some node => exact iff_of_false nofun nofun

/-- What holds of every single directory that is made along paths holds of all of them together, if
it holds of nothing and adds up. -/
theorem createAlong_induct {r : FileSystem → FileSystem → Prop} (refl : ∀ fs, r fs fs)
    (trans : ∀ {fs fs' fs''}, r fs fs' → r fs' fs'' → r fs fs'') {paths : List String}
    (create : ∀ path ∈ paths, ∀ {fs made}, fs.create path = .ok made → r fs made)
    (fs : FileSystem) : r fs (fs.createAlong paths).1 := by
  have ensure : ∀ path ∈ paths, ∀ {fs made}, fs.ensure path = .ok made → r fs made := by
    intro path hpath fs made h
    rw [FileSystem.ensure] at h
    split at h
    · next hcreate =>
      cases h
      exact create path hpath hcreate
    · split at h
      · cases h
        exact refl fs
      · cases h
  induction paths with
  | nil => exact refl fs
  | cons path above ih =>
    have habove := ih (fun path hpath => create path (List.mem_cons_of_mem _ hpath))
      fun path hpath => ensure path (List.mem_cons_of_mem _ hpath)
    rw [FileSystem.createAlong]
    split
    · exact refl fs
    · split
      -- What is above is only made where the directory cannot be made right away.
      · next hmade => exact ensure path List.mem_cons_self hmade
      · split
        · next hfailed =>
          rw [hfailed] at habove
          exact habove
        · next hopened =>
          rw [hopened] at habove
          split
          · next hmade => exact trans habove (ensure path List.mem_cons_self hmade)
          · exact habove
      · exact refl fs

/-- Making directories along paths only adds directories. -/
theorem opens_createAlong (fs : FileSystem) (paths : List String) :
    Opens fs (fs.createAlong paths).1 := by
  refine createAlong_induct Opens.refl Opens.trans (fun path _ fs made h => ?_) fs
  obtain ⟨place, -, hnone, rfl⟩ := create_eq_ok_iff.1 h
  exact .insert hnone

/-! ## One save -/

/-- Makes the directories above a file. -/
def opened (fs : FileSystem) (path : String) : FileSystem × Except FileFault Unit :=
  match Path.parent? path with
  | some directory => fs.createAll directory
  | none => (fs, .ok ())

/-- The place that a save puts contents at, if it does not fail. -/
def landing? (fs : FileSystem) (path : String) : Option Place :=
  match fs.opened path with
  | (_, .error _) => none
  | (fs, .ok ()) =>
    match fs.place path with
    | .error _ => none
    | .ok place => if fs.node? place = some .directory then none else some place

theorem opens_opened (fs : FileSystem) (path : String) : Opens fs (fs.opened path).1 := by
  rw [opened]
  split
  · exact opens_createAlong _ _
  · exact .refl fs

/-- A file is written once its directory is there. -/
theorem save_eq (fs : FileSystem) (path : String) (contents : Bytes) :
    fs.save path contents =
      match fs.opened path with
      | (fs, .error e) => (fs, .error e)
      | (fs, .ok ()) =>
        match fs.write path contents with
        | .ok fs => (fs, .ok ())
        | .error e => (fs, .error e) := by
  rw [save, opened]
  cases Path.parent? path with
  | none => rfl
  | some directory =>
    simp only
    rcases fs.createAll directory with ⟨made, e | _⟩ <;> rfl

/-- Where a path leads to no directory, the file is put. -/
theorem write_of_place {place : Place} (h : fs.place path = .ok place) (contents : Bytes) :
    fs.write path contents =
      if fs.node? place = some .directory then .error .isADirectory
      else .ok (fs.insert place (.file contents)) := by
  rw [write, h]
  simp only [bind, Except.bind]
  split
  · next hnode =>
    rw [if_pos hnode]
    rfl
  · next hnode =>
    rw [if_neg hnode]
    rfl

/-- A file that lands somewhere is put there once its directory is there. -/
theorem save_of_landing {place : Place} (h : fs.landing? path = some place) (contents : Bytes) :
    fs.save path contents = ((fs.opened path).1.insert place (.file contents), .ok ()) ∧
      (fs.opened path).1.place path = .ok place ∧
      (fs.opened path).1.node? place ≠ some .directory := by
  rw [landing?] at h
  rw [save_eq]
  rcases hopened : fs.opened path with ⟨opened, e | _⟩
  · rw [hopened] at h
    cases h
  · rw [hopened] at h
    simp only at h ⊢
    cases hplace : opened.place path with
    | error e =>
      rw [hplace] at h
      cases h
    | ok landed =>
      rw [hplace] at h
      simp only at h
      split at h
      · cases h
      · next hnode =>
        cases h
        rw [write_of_place hplace, if_neg hnode]
        exact ⟨rfl, rfl, hnode⟩

/-- A file that lands nowhere is not saved, and at most its directory is made. -/
theorem save_of_no_landing (h : fs.landing? path = none) (contents : Bytes) :
    ∃ e, fs.save path contents = ((fs.opened path).1, .error e) := by
  rw [landing?] at h
  rw [save_eq]
  rcases hopened : fs.opened path with ⟨opened, e | _⟩
  · exact ⟨e, rfl⟩
  · rw [hopened] at h
    simp only at h ⊢
    cases hplace : opened.place path with
    | error e =>
      rw [write, hplace]
      exact ⟨e, rfl⟩
    | ok landed =>
      rw [hplace] at h
      simp only at h
      split at h
      · next hnode =>
        rw [write_of_place hplace, if_pos hnode]
        exact ⟨.isADirectory, rfl⟩
      · cases h

/-- A save that does not fail puts its contents somewhere. -/
theorem exists_landing {contents : Bytes} (h : (fs.save path contents).2 = .ok ()) :
    ∃ place, fs.landing? path = some place := by
  cases hlanding : fs.landing? path with
  | some place => exact ⟨place, rfl⟩
  | none =>
    obtain ⟨e, hsave⟩ := save_of_no_landing hlanding contents
    rw [hsave] at h
    cases h

/-- Nothing has to be made for a file in a directory that is there. -/
theorem opened_of_directory {directory : String} {above : Place}
    (hparent : Path.parent? path = some directory) (hne : directory.isEmpty = false)
    (hdirectory : fs.place directory = .ok above) (habove : fs.node? above = some .directory) :
    fs.opened path = (fs, .ok ()) := by
  have hcreate : fs.create directory = .error .alreadyExists := by
    rw [create, hdirectory]
    simp only [bind, Except.bind, habove]
    rfl
  have hfound : fs.isDirectory directory = true := by
    rw [isDirectory, find, hdirectory]
    simp only [bind, Except.bind, habove]
    rfl
  have hensure : fs.ensure directory = .ok fs := by rw [ensure, hcreate, hfound]; rfl
  rw [opened, hparent]
  simp only
  rw [createAll, createAlong, hne, hensure]
  rfl

/-- A file can be put into a directory that is there. -/
theorem save_of_directory {directory : String} {above place : Place}
    (hparent : Path.parent? path = some directory) (hne : directory.isEmpty = false)
    (hdirectory : fs.place directory = .ok above) (habove : fs.node? above = some .directory)
    (hplace : fs.place path = .ok place) (hnode : fs.node? place ≠ some .directory)
    (contents : Bytes) :
    fs.save path contents = (fs.insert place (.file contents), .ok ()) := by
  rw [save_eq, opened_of_directory hparent hne hdirectory habove]
  simp only
  rw [write_of_place hplace, if_neg hnode]

/-- A file is what it has been, unless contents have landed there. -/
theorem node?_save_eq_file_iff {place : Place} {contents contents' : Bytes} :
    (fs.save path contents).1.node? place = some (.file contents') ↔
      if fs.landing? path = some place then contents = contents'
      else fs.node? place = some (.file contents') := by
  have hopens := opens_opened fs path
  cases hlanding : fs.landing? path with
  | none =>
    obtain ⟨e, hsave⟩ := save_of_no_landing hlanding contents
    rw [hsave, if_neg (by simp)]
    exact hopens.file place contents'
  | some landed =>
    obtain ⟨hsave, -, hnode⟩ := save_of_landing hlanding contents
    rw [hsave, node?_insert _ _ _ _ (ne_nil_of_node? hnode)]
    by_cases hplace : landed = place
    · simp [hplace]
    · simpa [hplace] using hopens.file place contents'

/-- What has been made for a save stays, whatever becomes of the save. -/
theorem grows_opened (fs : FileSystem) (path : String) (contents : Bytes) :
    Grows (fs.opened path).1 (fs.save path contents).1 := by
  cases hlanding : fs.landing? path with
  | none =>
    obtain ⟨e, hsave⟩ := save_of_no_landing hlanding contents
    rw [hsave]
    exact .refl _
  | some landed =>
    obtain ⟨hsave, -, hnode⟩ := save_of_landing hlanding contents
    rw [hsave]
    exact .insert hnode _

/-- Saving a file takes nothing away but the file that was there. -/
theorem grows_save (fs : FileSystem) (path : String) (contents : Bytes) :
    Grows fs (fs.save path contents).1 :=
  (opens_opened fs path).toGrows.trans (grows_opened fs path contents)

/-- Contents can be found where they have landed. -/
theorem place_of_landing {place : Place} (h : fs.landing? path = some place) (contents : Bytes) :
    (fs.save path contents).1.place path = .ok place := by
  obtain ⟨hsave, hplace, hnode⟩ := save_of_landing h contents
  rw [hsave]
  exact (Grows.insert hnode _).place hplace

/-- A node is found where its path leads. -/
theorem find_eq_ok_iff {place : Place} {node : FileNode} :
    fs.find path = .ok (place, node) ↔ fs.place path = .ok place ∧ fs.node? place = some node := by
  rw [find, bind_eq_ok_iff]
  constructor
  · rintro ⟨place', hplace, h⟩
    split at h
    · next hnode =>
      cases h
      exact ⟨hplace, hnode⟩
    · cases h
  · rintro ⟨hplace, hnode⟩
    refine ⟨place, hplace, ?_⟩
    rw [hnode]
    rfl

/-- What has landed can be found by the path of the save. -/
theorem find_of_landing {place : Place} (h : fs.landing? path = some place) (contents : Bytes) :
    (fs.save path contents).1.find path = .ok (place, .file contents) :=
  find_eq_ok_iff.2 ⟨place_of_landing h contents,
    node?_save_eq_file_iff.2 (by rw [if_pos h])⟩

/-- A file that can be found holds after a save what it has held, unless contents have landed
there. -/
theorem find_save {place : Place} {held : Bytes} {target : String}
    (h : fs.find target = .ok (place, .file held)) (path : String) (contents : Bytes) :
    (fs.save path contents).1.find target =
      .ok (place, .file (if fs.landing? path = some place then contents else held)) := by
  obtain ⟨hplace, hnode⟩ := find_eq_ok_iff.1 h
  refine find_eq_ok_iff.2 ⟨(grows_save fs path contents).place hplace, ?_⟩
  rw [node?_save_eq_file_iff]
  split
  · rfl
  · exact hnode

/-! ## Saves in order -/

/-- Contents for the file at a path. -/
structure Saving where
  path : String
  contents : Bytes
  deriving DecidableEq

/-- What has been saved last, or else what was there before. -/
def Saving.last (held : Bytes) (saves : List Saving) : Bytes :=
  (saves.getLast?.map Saving.contents).getD held

/-- The last of all saves is the last one of those behind, if there is one. -/
theorem Saving.last_append (held : Bytes) (saves more : List Saving) :
    Saving.last held (saves ++ more) = Saving.last (Saving.last held saves) more := by
  rw [Saving.last, Saving.last, List.getLast?_append]
  cases more.getLast? <;> rfl

/-- Saves one after the other, whether or not they fail. -/
def saveAll (fs : FileSystem) : List Saving → FileSystem
  | [] => fs
  | s :: rest => (fs.save s.path s.contents).1.saveAll rest

/-- The saves whose contents land at a place. -/
def landed (fs : FileSystem) (place : Place) : List Saving → List Saving
  | [] => []
  | s :: rest =>
    (if fs.landing? s.path = some place then [s] else []) ++
      (fs.save s.path s.contents).1.landed place rest

/-- Files are saved one after the other. -/
theorem saveAll_append (fs : FileSystem) (saves more : List Saving) :
    fs.saveAll (saves ++ more) = (fs.saveAll saves).saveAll more := by
  induction saves generalizing fs with
  | nil => rfl
  | cons s rest ih => exact ih _

theorem grows_saveAll (fs : FileSystem) (saves : List Saving) : Grows fs (fs.saveAll saves) := by
  induction saves generalizing fs with
  | nil => exact .refl fs
  | cons s rest ih => exact (grows_save ..).trans (ih _)

/-- A file holds what has landed there last. -/
theorem find_saveAll {place : Place} {held : Bytes} {target : String}
    (h : fs.find target = .ok (place, .file held)) (saves : List Saving) :
    (fs.saveAll saves).find target =
      .ok (place, .file (Saving.last held (fs.landed place saves))) := by
  -- Each save passes on what the file holds by then, so `held` varies along the list.
  induction saves generalizing fs held with
  | nil => exact h
  | cons s rest ih =>
    rw [saveAll, ih (find_save h s.path s.contents), landed, Saving.last_append]
    split <;> rfl

/-- Every file was there before, or comes from a save whose path leads to it. -/
theorem file_saveAll {place : Place} {contents : Bytes} {saves : List Saving}
    (h : (fs.saveAll saves).node? place = some (.file contents)) :
    fs.node? place = some (.file contents) ∨
      ∃ s ∈ saves, s.contents = contents ∧ (fs.saveAll saves).place s.path = .ok place := by
  induction saves generalizing fs with
  | nil => exact .inl h
  | cons s rest ih =>
    rcases ih h with hnode | ⟨s', hs', hcontents, hplace⟩
    · rw [node?_save_eq_file_iff] at hnode
      split at hnode
      · next hlanding =>
        refine .inr ⟨s, List.mem_cons_self, hnode, ?_⟩
        exact (grows_saveAll _ rest).place (place_of_landing hlanding _)
      · exact .inl hnode
    · exact .inr ⟨s', List.mem_cons_of_mem _ hs', hcontents, hplace⟩

/-- Contents that have landed at a place come from a save whose path led there. -/
theorem mem_of_mem_landed {place : Place} {s : Saving} {saves : List Saving}
    (h : s ∈ fs.landed place saves) :
    s ∈ saves ∧ ∃ fs', Grows fs fs' ∧ fs'.place s.path = .ok place := by
  induction saves generalizing fs with
  | nil => cases h
  | cons first rest ih =>
    have hgrows := grows_save fs first.path first.contents
    rcases List.mem_append.1 h with h | h
    · split at h
      · next hlanding =>
        obtain rfl := List.mem_singleton.1 h
        exact ⟨List.mem_cons_self, _, hgrows, place_of_landing hlanding _⟩
      · cases h
    · obtain ⟨hmem, fs', hgrows', hplace⟩ := ih h
      exact ⟨List.mem_cons_of_mem _ hmem, fs', hgrows.trans hgrows', hplace⟩

end FileSystem

end Crosswalk
