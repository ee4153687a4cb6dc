import Crosswalk.Proofs.Files.Saving
import Crosswalk.Proofs.Files.Segments

/-!
# Which directories are made

Directories are made from the end of a path: where one cannot be made for want of the one above it,
that one is made first. Seen from the front, each name is looked for in turn, and its directory is
made if there is nothing (`FileSystem.makeNext`). Both come to the same where everything lies in a
directory (`FileSystem.createAlong_chain`).
-/

namespace Crosswalk

namespace FileSystem

variable {fs : FileSystem} {absolute : Bool} {up l : List String} {here : Place} {path s : String}

/-- A save first makes the directories along the path in front of its last segment. -/
theorem opened_eq (fs : FileSystem) (h : Path.significant path = l ++ [s]) :
    fs.opened path = fs.createAlong (Path.chain (Path.isAbsolute path) l) := by
  have htidy : Path.Tidy (Path.isAbsolute path) l := by
    have hall := Path.tidy_significant path
    rw [h] at hall
    exact hall.front
  rw [opened, Path.parent?, Path.above_of_significant h, Path.chain_of_tidy htidy]
  rfl

/-! ## Refusals -/

/-- Why a path is refused whatever there is. -/
def refusal? (path : String) : Option FileFault :=
  if path.toList.contains '\x00' then some .holdsNull
  else if path.isEmpty then some .notFound
  else if pathLimit ≤ path.utf8ByteSize then some .nameTooLong
  else none

/-- A path leads nowhere if it is refused, and otherwise where its steps lead. -/
theorem place_eq (fs : FileSystem) (path : String) : fs.place path =
    match refusal? path with
    | some e => .error e
    | none => fs.walk (fs.origin path) (steps path) := by
  rw [place, refusal?]
  split
  · rfl
  · split
    · rfl
    · split <;> rfl

/-- A path is refused if it has a zero character, is empty, or is too long. -/
theorem refusal?_eq_none_iff : refusal? path = none ↔
    '\x00' ∉ path.toList ∧ path ≠ "" ∧ path.utf8ByteSize < pathLimit := by
  rw [refusal?]
  split
  · next hnull => simp_all
  · split
    · next hempty => simp_all
    · split <;> simp_all

/-- The directory above is not refused if the path is not. -/
theorem refusal?_front (hsegments : ∀ s ∈ l, '/' ∉ s.toList ∧ s ≠ "") (hl : l ≠ [])
    (h : refusal? (Path.ofSegments absolute (l ++ [s])) = none) :
    refusal? (Path.ofSegments absolute l) = none := by
  have hne := Path.ofSegments_ne_empty absolute hsegments hl
  rw [refusal?_eq_none_iff, Path.ofSegments_concat absolute s hl] at h
  obtain ⟨hnull, -, hlimit⟩ := h
  simp only [String.toList_append, List.mem_append, not_or] at hnull
  simp only [String.utf8ByteSize_append] at hlimit
  exact refusal?_eq_none_iff.2 ⟨hnull.1.1, hne, by omega⟩

/-- The steps are the segments that a path is made from. -/
theorem steps_ofSegments (h : ∀ s ∈ l, '/' ∉ s.toList ∧ s ≠ "") (hne : l ≠ []) :
    steps (Path.ofSegments absolute l) = l := by
  rw [steps, if_neg (by simpa using Path.getLast?_ofSegments h hne), List.append_nil]
  exact (Path.parts_ofSegments absolute h).1

/-- Where such a path leads is where its segments lead. -/
theorem place_ofSegments (hsegments : ∀ s ∈ l, '/' ∉ s.toList ∧ s ≠ "") (hl : l ≠ [])
    (h : refusal? (Path.ofSegments absolute l) = none) : fs.place (Path.ofSegments absolute l) =
      fs.walk (if absolute then [] else fs.workingDirectory) l := by
  rw [place_eq, h, origin, (Path.parts_ofSegments absolute hsegments).2,
    steps_ofSegments hsegments hl]

/-- A slash leads to the root. -/
theorem place_root (fs : FileSystem) : fs.place "/" = .ok [] := by
  have hsteps : steps "/" = ["."] := by decide
  have horigin : fs.origin "/" = [] := rfl
  rw [place_eq, hsteps, horigin]
  rfl

/-! ## Steps along names -/

/-- A walk along two parts is one along the first and then one along the second. -/
theorem walk_append (fs : FileSystem) (here : Place) (a b : List String) :
    fs.walk here (a ++ b) = fs.walk here a >>= fun mid => fs.walk mid b := by
  induction a generalizing here with
  | nil => rfl
  | cons segment rest ih =>
    simp only [List.cons_append, walk]
    cases fs.node? here with
    | none => rfl
    | some node =>
      cases node with
      | file _ => rfl
      | directory =>
        simp only
        split
        · exact ih _
        · split
          · exact ih _
          · split
            · rfl
            · exact ih _

/-- Where a name leads from a directory. -/
theorem walk_name (hhere : fs.node? here = some .directory) (hname : Path.isName s = true) :
    fs.walk here [s] = if nameLimit < s.utf8ByteSize then .error .nameTooLong else .ok
    (here ++ [s]) := by
  obtain ⟨-, hdot, hdots⟩ := Path.ne_of_isName hname
  simp only [walk, hhere, if_neg hdot, if_neg hdots]

/-- Everything lies in a directory, and so does the work. -/
structure Closed (fs : FileSystem) : Prop where
  above : ∀ place node, fs.node? place = some node → fs.node? place.dropLast = some .directory
  workingDirectory : fs.node? fs.workingDirectory = some .directory

/-- What is on the way to something is a directory. -/
theorem Closed.directory (h : Closed fs) {place : Place} {more : List String} {node : FileNode}
    (hmore : more ≠ []) (hnode : fs.node? (place ++ more) = some node) :
    fs.node? place = some .directory := by
  induction more using List.reverseRecOn generalizing node with
  | nil => exact absurd rfl hmore
  | append_singleton front s ih =>
    have habove := h.above _ _ hnode
    rw [← List.append_assoc, List.dropLast_concat] at habove
    by_cases hfront : front = []
    · rwa [hfront, List.append_nil] at habove
    · exact ih hfront habove

/-- A closed file system stays so if something is put into a directory. -/
theorem Closed.insert (h : Closed fs) {place : Place} (hnode : fs.node? place ≠ some .directory)
    (hparent : fs.node? place.dropLast = some .directory) (node : FileNode) :
    Closed (fs.insert place node) := by
  have hne := ne_nil_of_node? hnode
  have hkept : ∀ other, fs.node? other = some .directory →
      (fs.insert place node).node? other = some .directory := fun other hother =>
    (Grows.insert hnode node).directory other hother
  refine ⟨fun other node' hother => ?_, hkept _ h.workingDirectory⟩
  rw [node?_insert _ _ _ _ hne] at hother
  split at hother
  · next hsame => exact hkept _ (hsame ▸ hparent)
  · exact hkept _ (h.above other node' hother)

/-! ## Making directories from the front -/

/-- Makes the directory of a name where one has come to, unless it is there. What is no directory is
in the way of a directory of that name, and of anything that is to lie in one. -/
def makeNext : FileSystem × Except FileFault Place → String → FileSystem × Except FileFault Place
  | (fs, .ok here), name =>
    if nameLimit < name.utf8ByteSize then (fs, .error .nameTooLong)
    else
      match fs.node? (here ++ [name]) with
      | none => (fs.insert (here ++ [name]) .directory, .ok (here ++ [name]))
      | some .directory => (fs, .ok (here ++ [name]))
      | some (.file _) => (fs, .error .alreadyExists)
  | (fs, .error .alreadyExists), _ => (fs, .error .notADirectory)
  | (fs, .error e), _ => (fs, .error e)

/-- Makes the directories of names, the first one where one is. -/
def makeAll (fs : FileSystem) (here : Place) (names : List String) :
    FileSystem × Except FileFault Place :=
  names.foldl makeNext (fs, .ok here)

/-- The last directory is made behind all others. -/
theorem makeAll_concat (fs : FileSystem) (here : Place) (names : List String) (s : String) :
    fs.makeAll here (names ++ [s]) = makeNext (fs.makeAll here names) s :=
  List.foldl_concat ..

/-- Behind a failure nothing more is made. -/
theorem makeNext_error {e : FileFault} (h : e ≠ .alreadyExists) (fs : FileSystem) (s : String) :
    makeNext (fs, .error e) s = (fs, .error e) := by
  cases e <;> first | rfl | exact absurd rfl h

/-- If the next directory cannot be made, nothing has changed. -/
theorem makeNext_eq_error {made : FileSystem} {e : FileFault}
    (h : makeNext (fs, .ok here) s = (made, .error e)) : made = fs ∧ e ≠ .notFound := by
  rw [makeNext] at h
  split at h
  · cases h
    exact ⟨rfl, nofun⟩
  · split at h
    · cases h
    · cases h
    · cases h
      exact ⟨rfl, nofun⟩

variable {names : List String}

/-- At most a directory is added. -/
theorem opens_makeNext (a : FileSystem × Except FileFault Place) (s : String) :
    Opens a.1 (makeNext a s).1 := by
  obtain ⟨fs, e | here⟩ := a
  · cases e <;> exact .refl fs
  · rw [makeNext]
    split
    · exact .refl fs
    · split
      · next hnone => exact .insert hnone
      · exact .refl fs
      · exact .refl fs

theorem opens_makeAll (fs : FileSystem) (here : Place) (names : List String) :
    Opens fs (fs.makeAll here names).1 := by
  induction names using List.reverseRecOn with
  | nil => exact .refl fs
  | append_singleton front s ih =>
    rw [makeAll_concat]
    exact ih.trans (opens_makeNext _ s)

/-- Directories have been made as far as a place, and the names lead there. -/
structure Made (fs : FileSystem) (here : Place) (names : List String) (made : FileSystem)
    (there : Place) : Prop where
  place : there = here ++ names
  directory : made.node? there = some .directory
  walk : made.walk here names = .ok there

/-- Where a further directory is made. -/
theorem makeNext_eq_ok_iff {made : FileSystem} {there : Place} :
    makeNext (fs, .ok here) s = (made, .ok there) ↔ s.utf8ByteSize ≤ nameLimit ∧
      there = here ++ [s] ∧ ((fs.node? there = none ∧ made = fs.insert there .directory) ∨
        (fs.node? there = some .directory ∧ made = fs)) := by
  rw [makeNext]
  split
  · next hlimit =>
    refine iff_of_false (fun h => ?_) fun h => Nat.not_le.2 hlimit h.1
    cases h
  · next hlimit =>
    rw [Nat.not_lt] at hlimit
    split
    · next hnode =>
      constructor
      · intro h
        cases h
        exact ⟨hlimit, rfl, .inl ⟨hnode, rfl⟩⟩
      · rintro ⟨-, rfl, ⟨-, rfl⟩ | ⟨hthere, -⟩⟩
        · rfl
        · cases hnode.symm.trans hthere
    · next hnode =>
      constructor
      · intro h
        cases h
        exact ⟨hlimit, rfl, .inr ⟨hnode, rfl⟩⟩
      · rintro ⟨-, rfl, ⟨hnone, -⟩ | ⟨-, rfl⟩⟩
        · cases hnode.symm.trans hnone
        · rfl
    · next hnode =>
      refine iff_of_false (fun h => by cases h) ?_
      rintro ⟨-, rfl, ⟨hnone, -⟩ | ⟨hthere, -⟩⟩
      · cases hnode.symm.trans hnone
      · cases hnode.symm.trans hthere

/-- What has been made are directories along the names. -/
theorem made_of_makeAll (hhere : fs.node? here = some .directory)
    (hnames : ∀ s ∈ names, Path.isName s = true) {made : FileSystem} {there : Place}
    (h : fs.makeAll here names = (made, .ok there)) : Made fs here names made there := by
  induction names using List.reverseRecOn generalizing made there with
  | nil =>
    cases h
    exact ⟨(List.append_nil _).symm, hhere, rfl⟩
  | append_singleton front s ih =>
    have hs := hnames s (List.mem_append_right front (List.mem_singleton_self s))
    rw [makeAll_concat] at h
    rcases hfront : fs.makeAll here front with ⟨fs₁, e | mid⟩
    · rw [hfront] at h
      cases e <;> cases h
    · obtain ⟨rfl, hdirectory, hwalk⟩ :=
        ih (fun s hs => hnames s (List.mem_append_left _ hs)) hfront
      rw [hfront] at h
      obtain ⟨hlimit, rfl, hcases⟩ := makeNext_eq_ok_iff.1 h
      have hopens := opens_makeNext (fs₁, .ok (here ++ front)) s
      rw [h] at hopens
      refine ⟨by simp, ?_, ?_⟩
      · rcases hcases with ⟨hnone, rfl⟩ | ⟨hthere, rfl⟩
        · rw [node?_insert _ _ _ _ (by simp), if_pos rfl]
        · exact hthere
      · rw [walk_append, hopens.toGrows.walk hwalk]
        show made.walk (here ++ front) [s] = _
        rw [walk_name (hopens.directory _ hdirectory) hs, if_neg (Nat.not_lt.2 hlimit)]

/-- What can be made of a way that is there up to its end. -/
theorem makeAll_of_walk (hhere : fs.node? here = some .directory)
    (hnames : ∀ s ∈ names, Path.isName s = true) {there : Place}
    (h : fs.walk here names = .ok there) : fs.makeAll here names =
      match fs.node? there with
      | none => (fs.insert there .directory, .ok there)
      | some .directory => (fs, .ok there)
      | some (.file _) => (fs, .error .alreadyExists) := by
  induction names using List.reverseRecOn generalizing there with
  | nil =>
    cases h
    rw [hhere]
    rfl
  | append_singleton front s ih =>
    have hs := hnames s (List.mem_append_right front (List.mem_singleton_self s))
    obtain ⟨mid, hmid, hlast⟩ := walk_append_eq_ok_iff.1 h
    have hdirectory := (walk_cons_eq_ok_iff.1 hlast).1
    rw [walk_name hdirectory hs] at hlast
    rw [makeAll_concat, ih (fun s hs => hnames s (List.mem_append_left _ hs)) hmid, hdirectory]
    simp only [makeNext]
    split at hlast
    · cases hlast
    · next hlimit =>
      cases hlast
      rw [if_neg hlimit]

/-- A way that is blocked, and not for want of a directory, stops the making of directories there.
-/
theorem makeAll_of_blocked (hhere : fs.node? here = some .directory)
    (hnames : ∀ s ∈ names, Path.isName s = true) {e : FileFault}
    (h : fs.walk here names = .error e) (hblocked : e ≠ .notFound) :
    fs.makeAll here names = (fs, .error e) ∧ e ≠ .alreadyExists := by
  -- The way is blocked in front of the last name, or right at it.
  induction names using List.reverseRecOn generalizing e with
  | nil => cases h
  | append_singleton front s ih =>
    have hs := hnames s (List.mem_append_right front (List.mem_singleton_self s))
    have hfront : ∀ s ∈ front, Path.isName s = true :=
      fun s hs => hnames s (List.mem_append_left _ hs)
    rw [walk_append] at h
    rw [makeAll_concat]
    cases hmid : fs.walk here front with
    | error e' =>
      rw [hmid] at h
      cases h
      obtain ⟨hmade, hne⟩ := ih hfront hmid hblocked
      rw [hmade, makeNext_error hne]
      exact ⟨rfl, hne⟩
    | ok mid =>
      rw [hmid] at h
      change fs.walk mid [s] = _ at h
      rw [makeAll_of_walk hhere hfront hmid]
      cases hnode : fs.node? mid with
      | none =>
        rw [walk, hnode] at h
        cases h
        exact absurd rfl hblocked
      | some node =>
        cases node with
        | file _ =>
          rw [walk, hnode] at h
          cases h
          exact ⟨rfl, by simp⟩
        | directory =>
          rw [walk_name hnode hs] at h
          simp only [makeNext]
          split at h
          · next hlimit =>
            cases h
            rw [if_pos hlimit]
            exact ⟨rfl, by simp⟩
          · cases h

/-- Only a file at the very end is said to be there already. -/
theorem file_of_makeAll (hhere : fs.node? here = some .directory)
    (hnames : ∀ s ∈ names, Path.isName s = true)
    (h : (fs.makeAll here names).2 = .error .alreadyExists) :
    ∃ contents, fs.node? (here ++ names) = some (.file contents) := by
  rcases List.eq_nil_or_concat' names with rfl | ⟨front, s, rfl⟩
  · cases h
  · rw [makeAll_concat] at h
    have hopens := opens_makeAll fs here front
    rcases hfront : fs.makeAll here front with ⟨fs₁, e | mid⟩
    · rw [hfront] at h
      cases e <;> cases h
    · obtain ⟨rfl, -, -⟩ :=
        made_of_makeAll hhere (fun s hs => hnames s (List.mem_append_left _ hs)) hfront
      rw [hfront] at h hopens
      simp only [makeNext] at h
      split at h
      · cases h
      · split at h
        · cases h
        · cases h
        · next contents hnode =>
          refine ⟨contents, ?_⟩
          rw [← List.append_assoc]
          exact (hopens.file _ _).1 hnode

/-- What is there is not missed on the way to it. -/
theorem walk_ne_notFound (hclosed : Closed fs) (hnames : ∀ s ∈ names, Path.isName s = true)
    {node : FileNode} (hnode : fs.node? (here ++ names) = some node) :
    fs.walk here names ≠ .error .notFound := by
  induction names generalizing here with
  | nil => nofun
  | cons s rest ih =>
    have hhere : fs.node? here = some .directory :=
      hclosed.directory (List.cons_ne_nil s rest) hnode
    rw [← List.singleton_append, walk_append, walk_name hhere (hnames s List.mem_cons_self)]
    split
    · nofun
    · exact ih (fun s hs => hnames s (List.mem_cons_of_mem _ hs)) (by simpa using hnode)

/-! ## Making directories from the end -/

/-- Where a path leads to nothing yet, a directory is made, and only a file is in the way. -/
theorem ensure_of_place {place : Place} (h : fs.place path = .ok place) : fs.ensure path =
    match fs.node? place with
    | none => .ok (fs.insert place .directory)
    | some .directory => .ok fs
    | some (.file _) => .error .alreadyExists := by
  rw [ensure, create, isDirectory, find, h]
  simp only [bind, Except.bind]
  rcases Option.eq_none_or_eq_some (fs.node? place) with hnode | ⟨node, hnode⟩
  · simp only [hnode]
    rfl
  · simp only [hnode]
    cases node <;> rfl

/-- A path that leads nowhere is no place for a directory. -/
theorem ensure_error {e : FileFault} (hplace : fs.place path = .error e) :
    fs.ensure path = .error e := by
  rw [ensure, create, isDirectory, find, hplace]
  rfl

/-- Tries to make a directory. Where it cannot be made, all stays as it is. -/
def tryEnsure (fs : FileSystem) (path : String) : FileSystem × Except FileFault Unit :=
  match fs.ensure path with
  | .ok made => (made, .ok ())
  | .error e => (fs, .error e)

/-- How making a directory has gone, without the place of it. -/
def outcome (made : FileSystem × Except FileFault Place) : FileSystem × Except FileFault Unit :=
  (made.1, made.2.map fun _ => ())

/-- A further directory is made from the end as it is from the front. -/
theorem tryEnsure_eq_makeNext (hplace : fs.place path =
      if nameLimit < s.utf8ByteSize then .error .nameTooLong else .ok (here ++ [s])) :
    fs.tryEnsure path = outcome (makeNext (fs, .ok here) s) := by
  rw [tryEnsure, makeNext]
  split at hplace
  · next hlimit =>
    rw [ensure_error hplace, if_pos hlimit]
    rfl
  · next hlimit =>
    rw [ensure_of_place hplace, if_neg hlimit]
    cases fs.node? (here ++ [s]) with
    | none => rfl
    | some node => cases node <;> rfl

/-- Those above a directory are not tried if they are not what it is missing. -/
theorem createAlong_of_reached {above : List String} (hne : path ≠ "")
    (h : (fs.tryEnsure path).2 ≠ .error .notFound) :
    fs.createAlong (path :: above) = fs.tryEnsure path := by
  rw [createAlong, if_neg (by simpa using hne)]
  rw [tryEnsure] at h ⊢
  cases hensure : fs.ensure path with
  | ok made => rfl
  | error e =>
    rw [hensure] at h
    cases e <;> first | rfl | exact absurd rfl h

/-- Where a directory cannot be made for another reason than that one above it is missing, those
above are not tried. -/
theorem createAlong_of_error {above : List String} {e : FileFault} (hne : path ≠ "")
    (hplace : fs.place path = .error e) (he : e ≠ .notFound) :
    fs.createAlong (path :: above) = (fs, .error e) := by
  have htried : fs.tryEnsure path = (fs, .error e) := by rw [tryEnsure, ensure_error hplace]
  rw [createAlong_of_reached hne (by rw [htried]; simpa using he), htried]

/-- Where a directory above is missing, that one is made first. -/
theorem createAlong_of_notFound {above : List String} (hne : path ≠ "")
    (hplace : fs.place path = .error .notFound) : fs.createAlong (path :: above) =
      match fs.createAlong above with
      | (made, .ok ()) => made.tryEnsure path
      | (made, .error e) => (made, .error e) := by
  rw [createAlong, if_neg (by simpa using hne), ensure_error hplace]
  rcases fs.createAlong above with ⟨made, e | ⟨⟩⟩ <;> rfl

/-- A path that is refused is not tried with the directories above it. -/
theorem createAlong_of_refusal {e : FileFault} (hsegments : ∀ s ∈ l, '/' ∉ s.toList ∧ s ≠ "")
    (hl : l ≠ []) (h : refusal? (Path.ofSegments absolute l) = some e) :
    fs.createAlong (Path.chain absolute l) = (fs, .error e) := by
  have hne := Path.ofSegments_ne_empty absolute hsegments hl
  have hplace : fs.place (Path.ofSegments absolute l) = .error e := by
    rw [place_eq, h]
  rw [Path.chain_eq_cons]
  refine createAlong_of_error hne hplace ?_
  rintro rfl
  rw [refusal?] at h
  split at h
  · cases h
  · split at h
    · next hempty => exact hne (by simpa using hempty)
    · split at h <;> cases h

/-- If just one directory is missing on the way, it is all that is made. -/
theorem createAlong_of_missing {more : List String} {mid there : Place}
    (hsegments : ∀ s ∈ l ++ more, '/' ∉ s.toList ∧ s ≠ "") (hl : l ≠ [])
    (hrefusal : refusal? (Path.ofSegments absolute (l ++ more)) = none)
    (hwalk : fs.walk (if absolute then [] else fs.workingDirectory) l = .ok mid)
    (hnone : fs.node? mid = none) (hmore : (fs.insert mid .directory).walk mid more = .ok there)
    (hthere : (fs.insert mid .directory).node? there = some .directory) :
    fs.createAlong (Path.chain absolute (l ++ more)) = (fs.insert mid .directory, .ok ()) := by
  have hgrows : Grows fs (fs.insert mid .directory) := .insert (by simp [hnone]) _
  induction more using List.reverseRecOn generalizing there with
  | nil =>
    rw [List.append_nil] at hsegments hrefusal ⊢
    have hensure : fs.ensure (Path.ofSegments absolute l) = .ok (fs.insert mid .directory) := by
      rw [ensure_of_place ((place_ofSegments hsegments hl hrefusal).trans hwalk), hnone]
    rw [Path.chain_eq_cons, createAlong,
      if_neg (by simpa using Path.ofSegments_ne_empty absolute hsegments hl), hensure]
  | append_singleton front s ih =>
    obtain ⟨last, hfront, hlast⟩ := walk_append_eq_ok_iff.1 hmore
    rw [← List.append_assoc] at hsegments hrefusal ⊢
    have hall : l ++ front ++ [s] ≠ [] := by simp
    have hsegments' : ∀ s ∈ l ++ front, '/' ∉ s.toList ∧ s ≠ "" :=
      fun s hs => hsegments s (List.mem_append_left _ hs)
    have habove := ih hsegments' (refusal?_front hsegments' (by simp [hl]) hrefusal) hfront
      (walk_cons_eq_ok_iff.1 hlast).1
    -- Before the directory is made there is nowhere to go on from it.
    have hbefore : fs.place (Path.ofSegments absolute (l ++ front ++ [s])) = .error .notFound := by
      rw [place_ofSegments hsegments hall hrefusal, List.append_assoc, walk_append, hwalk]
      show fs.walk mid (front ++ [s]) = _
      cases front <;> simp [walk, hnone]
    have hafter : (fs.insert mid .directory).place (Path.ofSegments absolute (l ++ front ++ [s])) =
        .ok there := by
      rw [place_ofSegments hsegments hall hrefusal, List.append_assoc, walk_append,
        hgrows.workingDirectory, hgrows.walk hwalk]
      exact hmore
    rw [Path.chain_concat,
      createAlong_of_notFound (Path.ofSegments_ne_empty absolute hsegments hall) hbefore, habove]
    simp only [tryEnsure, ensure_of_place hafter, hthere]

/-- If just one directory is missing for a save, it is all that is made. -/
theorem opened_of_missing {more : List String} {mid there : Place}
    (hpath : Path.significant path = l ++ more ++ [s]) (hl : l ≠ [])
    (hrefusal : refusal? (Path.ofSegments (Path.isAbsolute path) (l ++ more)) = none)
    (hwalk : fs.walk (fs.origin path) l = .ok mid) (hnone : fs.node? mid = none)
    (hmore : (fs.insert mid .directory).walk mid more = .ok there)
    (hthere : (fs.insert mid .directory).node? there = some .directory) :
    fs.opened path = (fs.insert mid .directory, .ok ()) := by
  have htidy := Path.tidy_significant path
  rw [hpath] at htidy
  rw [opened_eq fs hpath]
  exact createAlong_of_missing htidy.front.segment hl hrefusal hwalk hnone hmore hthere

/-- Nothing is made along a way that ends in a directory. -/
theorem createAlong_of_directory (hsegments : ∀ s ∈ up, '/' ∉ s.toList ∧ s ≠ "")
    (hup : fs.walk (if absolute then [] else fs.workingDirectory) up = .ok here)
    (hhere : fs.node? here = some .directory)
    (hrefusal : up = [] ∨ refusal? (Path.ofSegments absolute up) = none) :
    fs.createAlong (Path.chain absolute up) = (fs, .ok ()) := by
  rw [Path.chain_eq_cons]
  by_cases hempty : Path.ofSegments absolute up = ""
  · rw [hempty, createAlong]
    rfl
  · have hplace : fs.place (Path.ofSegments absolute up) = .ok here := by
      by_cases hl : up = []
      · subst hl
        cases hup
        cases absolute with
        | false => exact absurd rfl hempty
        | true => exact place_root fs
      · rw [place_ofSegments hsegments hl (hrefusal.resolve_left hl), hup]
    have htried : fs.tryEnsure (Path.ofSegments absolute up) = (fs, .ok ()) := by
      rw [tryEnsure, ensure_of_place hplace, hhere]
    rw [createAlong_of_reached hempty (by simp [htried]), htried]

/-- Where a further directory lies once those above it are made. -/
theorem Made.place_next {made : FileSystem} {there : Place} (h : Made fs here names made there)
    (hs : Path.isName s = true)
    (hplace : made.place path = made.walk here names >>= fun mid => made.walk mid [s]) :
    made.place path =
      if nameLimit < s.utf8ByteSize then .error .nameTooLong else .ok (there ++ [s]) := by
  rw [hplace, h.walk]
  exact walk_name h.directory hs

/-- If directories above the last one are missing, they are made first, and then the last one. -/
theorem createAlong_of_gap {above : List String} (hhere : fs.node? here = some .directory)
    (hnames : ∀ s ∈ names, Path.isName s = true) (hs : Path.isName s = true) (hpath : path ≠ "")
    (hplace : ∀ {grown : FileSystem}, Grows fs grown →
      grown.place path = grown.walk here names >>= fun mid => grown.walk mid [s])
    (habove : fs.createAlong above = outcome (fs.makeAll here names))
    (hgap : fs.walk here names >>= (fun mid => fs.walk mid [s]) = .error .notFound)
    (hfree : (fs.makeAll here names).2 ≠ .error .alreadyExists) :
    fs.createAlong (path :: above) = outcome (fs.makeAll here (names ++ [s])) := by
  have hopens := opens_makeAll fs here names
  rw [createAlong_of_notFound hpath ((hplace (.refl fs)).trans hgap), habove, makeAll_concat]
  rcases hmake : fs.makeAll here names with ⟨made, e | there⟩ <;> rw [hmake] at hfree hopens
  · rw [makeNext_error fun h => hfree (h ▸ rfl)]
    rfl
  · exact tryEnsure_eq_makeNext
      ((made_of_makeAll hhere hnames hmake).place_next hs (hplace hopens.toGrows))

/-- Directories that are made from the end of a path are made in the same way from where its last
step up has led, from the front. -/
theorem createAlong_chain (hclosed : Closed fs)
    (hsegments : ∀ s ∈ up ++ names, '/' ∉ s.toList ∧ s ≠ "")
    (hnames : ∀ s ∈ names, Path.isName s = true)
    (hup : fs.walk (if absolute then [] else fs.workingDirectory) up = .ok here)
    (hhere : fs.node? here = some .directory)
    (hrefusal : up ++ names = [] ∨ refusal? (Path.ofSegments absolute (up ++ names)) = none) :
    fs.createAlong (Path.chain absolute (up ++ names)) = outcome (fs.makeAll here names) := by
  induction names using List.reverseRecOn with
  | nil =>
    rw [List.append_nil] at hsegments hrefusal ⊢
    exact createAlong_of_directory hsegments hup hhere hrefusal
  | append_singleton front s ih =>
    have hs := hnames s (List.mem_append_right front (List.mem_singleton_self s))
    have hfront : ∀ s ∈ front, Path.isName s = true :=
      fun s hs => hnames s (List.mem_append_left _ hs)
    have hl : up ++ front ++ [s] ≠ [] := by simp
    rw [← List.append_assoc] at hsegments hrefusal ⊢
    have hrefusal := hrefusal.resolve_left hl
    have hsegments' : ∀ s ∈ up ++ front, '/' ∉ s.toList ∧ s ≠ "" :=
      fun s hs => hsegments s (List.mem_append_left _ hs)
    have habove := ih hsegments' hfront <| by
      by_cases hempty : up ++ front = []
      · exact .inl hempty
      · exact .inr (refusal?_front hsegments' hempty hrefusal)
    have hpath := Path.ofSegments_ne_empty absolute hsegments hl
    -- The path of the last directory, in any file system that has grown from this one.
    have hplace : ∀ {grown : FileSystem}, Grows fs grown →
        grown.place (Path.ofSegments absolute (up ++ front ++ [s])) =
          (grown.walk here front >>= fun mid => grown.walk mid [s]) := by
      intro grown hgrows
      rw [place_ofSegments hsegments hl hrefusal, hgrows.workingDirectory, List.append_assoc,
        walk_append, hgrows.walk hup]
      exact walk_append ..
    have hgap := createAlong_of_gap hhere hfront hs hpath hplace habove
    rw [Path.chain_concat]
    rcases hwalk : fs.walk here front with e | mid
    · have hsame :
          fs.walk here front >>= (fun mid => fs.walk mid [s]) = .error e := by rw [hwalk]; rfl
      by_cases hblocked : e = .notFound
      · subst hblocked
        refine hgap hsame fun hexists => ?_
        obtain ⟨contents, hfile⟩ := file_of_makeAll hhere hfront hexists
        exact walk_ne_notFound hclosed hfront hfile hwalk
      · obtain ⟨hmake, hne⟩ := makeAll_of_blocked hhere hfront hwalk hblocked
        rw [createAlong_of_error hpath ((hplace (.refl fs)).trans hsame) hblocked, makeAll_concat,
          hmake, makeNext_error hne]
        rfl
    · have hmake := makeAll_of_walk hhere hfront hwalk
      have hsame : fs.walk here front >>= (fun mid => fs.walk mid [s]) = fs.walk mid [s] := by
        rw [hwalk]
        rfl
      rcases hnode : fs.node? mid with _ | _ | contents <;> rw [hnode] at hmake
      · exact hgap (hsame.trans (by rw [walk, hnode])) (by simp [hmake])
      · -- All directories above are there, so that the last one is made at once.
        have htried := tryEnsure_eq_makeNext
          ((made_of_makeAll hhere hfront hmake).place_next hs (hplace (.refl fs)))
        rw [makeAll_concat, hmake, ← htried]
        refine createAlong_of_reached hpath ?_
        rw [htried]
        rcases hres : makeNext (fs, .ok mid) s with ⟨last, e | _⟩
        · simpa [outcome, Except.map] using (makeNext_eq_error hres).2
        · simp [outcome, Except.map]
      · have hblocked : fs.walk mid [s] = .error .notADirectory := by rw [walk, hnode]
        rw [createAlong_of_error hpath ((hplace (.refl fs)).trans (hsame.trans hblocked)) (by simp),
          makeAll_concat, hmake]
        rfl

end FileSystem

end Crosswalk
