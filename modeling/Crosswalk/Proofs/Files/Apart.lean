import Crosswalk.Proofs.Files.Alike

/-!
# Saves that keep away

What a save changes lies where the segments of its path lead one after the other
(`FileSystem.eq_lead_of_place`). So a save whose path keeps away from a place leaves the file system
alike there to what it was (`FileSystem.alike_save`). Files are left alone below any place that is
not where the path ends (`FileSystem.Separate`), but directories are made all along.
-/

namespace Crosswalk

namespace FileSystem

variable {kept : List Place} {fs : FileSystem} {start here place : Place} {s path : String}
  {names : List String}

/-! ## Where segments lead -/

/-- The place that segments lead to if there is nothing in the way. -/
def lead (here : Place) (l : List String) : Place :=
  l.foldl (fun here s => if s = "." then here else if s = ".." then here.dropLast else here ++ [s])
  here

/-- A longer path leads on from where its first part leads. -/
theorem lead_append (here : Place) (a b : List String) :
    lead here (a ++ b) = lead (lead here a) b :=
  List.foldl_append ..

/-- Names lead downwards. -/
theorem lead_names (here : Place) (hnames : ∀ s ∈ names, Path.isName s = true) :
    lead here names = here ++ names := by
  induction names generalizing here with
  | nil => exact (List.append_nil here).symm
  | cons s rest ih =>
    obtain ⟨-, hdot, hdots⟩ := Path.ne_of_isName (hnames s List.mem_cons_self)
    rw [lead, List.foldl_cons, if_neg hdot, if_neg hdots, ← lead,
      ih _ fun s hs => hnames s (List.mem_cons_of_mem _ hs), List.append_assoc]
    rfl

/-- Steps to the current directory lead nowhere. -/
theorem lead_filter (here : Place) (l : List String) :
    lead here (l.filter (· != ".")) = lead here l := by
  induction l generalizing here with
  | nil => rfl
  | cons s rest ih =>
    by_cases hs : s = "."
    · rw [List.filter_cons_of_neg (by simp [hs]), ih, lead, lead, List.foldl_cons, if_pos hs]
    · rw [List.filter_cons_of_pos (by simpa using hs), lead, lead, List.foldl_cons, List.foldl_cons,
        ← lead, ← lead, ih]

/-- Segments lead where nothing is in the way, if they lead anywhere. -/
theorem eq_lead_of_walk {l : List String} (h : fs.walk here l = .ok place) :
    place = lead here l := by
  induction l generalizing here with
  | nil =>
    cases h
    rfl
  | cons s rest ih =>
    obtain ⟨-, next, hnext, hrest⟩ := walk_cons_eq_ok_iff.1 h
    rw [ih hrest, lead, lead, List.foldl_cons]
    rw [stride] at hnext
    split at hnext
    · next hdot =>
      cases hnext
      rw [if_pos hdot]
    · next hdot =>
      rw [if_neg hdot]
      split at hnext
      · next hdots =>
        cases hnext
        rw [if_pos hdots]
      · next hdots =>
        rw [if_neg hdots]
        split at hnext
        · cases hnext
        · cases hnext
          rfl

/-- A path leads where its segments lead, if anywhere. -/
theorem eq_lead_of_place (h : fs.place path = .ok place) :
    place = lead (fs.origin path) (Path.significant path) := by
  have hfilter : (steps path).filter (· != ".") = (Path.significant path).filter (· != ".") := by
    rw [steps, Path.significant_eq, List.filter_append, List.filter_append]
    have hparts : (Path.segments path).filter (· != "") = Path.parts path := rfl
    rw [hparts]
    split <;> split <;> simp
  rw [eq_lead_of_walk (walk_of_place h), ← lead_filter, hfilter, lead_filter]

/-- What a path leads to lies in a directory. -/
theorem Closed.parent (h : Closed fs) (hplace : fs.place path = .ok place) :
    fs.node? place.dropLast = some .directory := by
  have horigin : fs.node? (fs.origin path) = some .directory := by
    rw [origin]
    split
    · rfl
    · exact h.workingDirectory
  have hwalk := walk_of_place hplace
  rcases List.eq_nil_or_concat' (steps path) with hsteps | ⟨front, s, hsteps⟩ <;>
    rw [hsteps] at hwalk
  · cases hwalk
    exact h.above _ _ horigin
  · obtain ⟨mid, -, hlast⟩ := walk_append_eq_ok_iff.1 hwalk
    obtain ⟨hmid, next, hnext, hsame⟩ := walk_cons_eq_ok_iff.1 hlast
    cases hsame
    have habove := h.above mid _ hmid
    rw [stride] at hnext
    split at hnext
    · cases hnext
      exact habove
    · split at hnext
      · cases hnext
        exact h.above _ _ habove
      · split at hnext
        · cases hnext
        · cases hnext
          rwa [List.dropLast_concat]

/-- Neither does a path end in a place or below it, nor is the place where the path ends or below.
-/
structure Separate (start : Place) (path : String) (place : Place) : Prop where
  inside : ¬ place <+: lead start (Path.significant path)
  outside : ¬ lead start (Path.significant path) <+: place

/-- Names lead from a path that is separate from a place to none of what is there. -/
theorem Separate.not_prefix_append (h : Separate start path place) (names : List String) :
    ¬ place <+: lead start (Path.significant path) ++ names := by
  intro hbelow
  rcases List.prefix_or_prefix_of_prefix hbelow (List.prefix_append _ _) with hpath | hpath
  · exact h.inside hpath
  · exact h.outside hpath

/-- A path keeps away from a place if it does not even come there on its way. -/
structure Apart (start : Place) (path : String) (place : Place) : Prop extends
    Separate start path place where
  route : ∀ front, front <+: Path.significant path → ¬ place <+: lead start front

/-- A path of names does not come to a place on its way if it does not end there. -/
theorem Apart.of_names (hnames : ∀ s ∈ Path.significant path, Path.isName s = true)
    (h : Separate start path place) : Apart start path place := by
  refine ⟨h, fun front hfront hbelow => h.inside ?_⟩
  rw [lead_names _ fun s hs => hnames s (hfront.subset hs)] at hbelow
  rw [lead_names _ hnames]
  exact hbelow.trans ((List.prefix_append_right_inj start).2 hfront)

section Below

variable {base name : String}

/-- The segments are those of the base, the directory, and the names of the path. -/
theorem significant_below_join (hs : '/' ∉ s.toList) (hname : Path.isName s = true) :
    Path.significant (Path.below (Path.join base s) name) =
      Path.significant base ++ s :: Path.names name := by
  obtain ⟨habsolute, hparts⟩ := Path.parts_of_isName hs hname
  have hjoin : Path.significant (Path.join base s) = Path.significant base ++ [s] := by
    refine Path.significant_of_parts (Path.isAbsolute_join base habsolute) ?_ ?_
    · rw [Path.parts_join base habsolute, hparts]
    · simpa using hname
  rw [Path.significant_below, hjoin, List.append_assoc]
  rfl

/-- All that is below the base are names. -/
theorem isName_of_mem_below (hname : Path.isName s = true) {other : String}
    (h : other ∈ s :: Path.names name) : Path.isName other = true := by
  rcases List.mem_cons.1 h with rfl | h
  · exact hname
  · exact (Path.isName_of_mem_names h).2

/-- What is separate from a place is so with everything below it. -/
theorem Separate.below (h : Separate start base place) (hs : '/' ∉ s.toList)
    (hname : Path.isName s = true) :
    Separate start (Path.below (Path.join base s) name) place := by
  have hlead : lead start (Path.significant (Path.below (Path.join base s) name)) =
      lead start (Path.significant base) ++ s :: Path.names name := by
    rw [significant_below_join hs hname, lead_append, lead_names _ fun _ =>
      isName_of_mem_below hname]
  constructor <;> rw [hlead]
  · exact h.not_prefix_append _
  · exact fun habove => h.outside ((List.prefix_append _ _).trans habove)

/-- What keeps away from a place does so with everything below it. -/
theorem Apart.below (h : Apart start base place) (hs : '/' ∉ s.toList)
    (hname : Path.isName s = true) : Apart start (Path.below (Path.join base s) name) place := by
  refine ⟨h.toSeparate.below hs hname, fun front hfront hbelow => ?_⟩
  rw [significant_below_join hs hname] at hfront
  rcases List.prefix_or_prefix_of_prefix hfront (List.prefix_append _ _) with hroute | ⟨more, rfl⟩
  · exact h.route front hroute hbelow
  -- Behind the base only names follow, which lead on below it.
  · have hmore : ∀ other ∈ more, Path.isName other = true := fun other hother =>
      isName_of_mem_below hname (((List.prefix_append_right_inj _).1 hfront).subset hother)
    rw [lead_append, lead_names _ hmore] at hbelow
    exact h.not_prefix_append more hbelow

end Below

/-- A directory that is made on the way of a path which keeps away from the place makes no
difference there. -/
theorem Apart.alike_create {front : List String} {directory : String} {made next : FileSystem}
    (h : Apart (fs.origin path) path place) (hpath : Path.significant path = front ++ [s])
    (hdirectory : directory ∈ Path.chain (Path.isAbsolute path) front)
    (hcreate : made.create directory = .ok next)
    (hworking : made.workingDirectory = fs.workingDirectory) (hclosed : Closed made) :
    Alike place kept made next := by
  obtain ⟨target, hplace, hnone, rfl⟩ := create_eq_ok_iff.1 hcreate
  refine .of_insert hclosed (by simp [hnone]) (hclosed.parent hplace) ?_ fun _ => ⟨rfl, hnone⟩
  obtain ⟨n, -, rfl⟩ := List.mem_map.1 hdirectory
  have htidy := Path.tidy_significant path
  rw [hpath, ← List.take_append_drop n front, List.append_assoc] at htidy
  have htarget := eq_lead_of_place hplace
  rw [Path.significant_ofSegments htidy.front, origin,
    (Path.parts_ofSegments _ htidy.front.segment).2, hworking, ← origin] at htarget
  intro hbelow
  refine h.route (front.take n) ?_ (htarget ▸ hbelow)
  rw [hpath]
  exact (List.take_prefix n front).trans (List.prefix_append _ _)

/-- The directories for a save whose path keeps away from the place make no difference there. -/
theorem alike_opened (h : Closed fs) (hapart : Apart (fs.origin path) path place) :
    Alike place kept fs (fs.opened path).1 := by
  rcases List.eq_nil_or_concat' (Path.significant path) with hnil | ⟨front, s, hpath⟩
  · have hparent : Path.parent? path = none := by rw [Path.parent?, Path.above, hnil]; rfl
    rw [opened, hparent]
    exact .refl h
  · rw [opened_eq fs hpath]
    refine createAlong_induct (r := fun made next => made.workingDirectory = fs.workingDirectory →
      Closed made → Alike place kept made next) (fun _ _ => .refl) ?_
      (fun directory hdirectory _ _ => hapart.alike_create hpath hdirectory) fs rfl h
    intro made next last hfirst hsecond hworking hclosed
    have halike := hfirst hworking hclosed
    exact halike.trans (hsecond (halike.workingDirectory.trans hworking) halike.closed')

/-- A save whose path keeps away from the place, and is separate from those that are kept, leaves
the file system alike to what it was. -/
theorem alike_save (h : Closed fs) (hapart : Apart (fs.origin path) path place)
    (hkept : ∀ root ∈ kept, Separate (fs.origin path) path root) (contents : Bytes) :
    Alike place kept fs (fs.save path contents).1 := by
  have hopened : Alike place kept fs (fs.opened path).1 := alike_opened h hapart
  cases hlanding : fs.landing? path with
  | none =>
    obtain ⟨e, hsave⟩ := save_of_no_landing hlanding contents
    rw [hsave]
    exact hopened
  | some target =>
    obtain ⟨hsave, hplace, hnode⟩ := save_of_landing hlanding contents
    rw [hsave]
    have htarget := eq_lead_of_place hplace
    rw [origin, hopened.workingDirectory, ← origin] at htarget
    refine hopened.trans (.of_insert hopened.closed' hnode (hopened.closed'.parent hplace) ?_ ?_)
    · exact fun hbelow => hapart.inside (htarget ▸ hbelow)
    · rintro (habove | ⟨root, hroot, hbelow⟩)
      · exact absurd (htarget ▸ habove) hapart.outside
      · exact absurd (htarget ▸ hbelow) (hkept root hroot).inside

end FileSystem

end Crosswalk
