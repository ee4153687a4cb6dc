import Crosswalk.Proofs.Files.Kept
import Crosswalk.Proofs.Provider.Confined
import Crosswalk.Proofs.Provider.Settled

/-!
# Requests in another order

The bytes of a class are made once, by the first request that needs them, and kept. What they are
is decided by what the renamer knows at that moment (`Provider.made_of_madeIn?`). A table of names
learns supertypes from the classes it is shown, so the order of requests matters only as far as it
decides what is known by then about the classes that the searches for new names pass.
-/

namespace Crosswalk

open Provider

variable {σ ρ : Type} [ModSource σ] [Renamer ρ]

/-! ## A mod that is left alone -/

open FileSystem (Closed SameFiles Separate)

/-- Settings keep clear of some places: no directory that a provider may write to lies at one of
them or below, and none of them lies below such a directory. -/
def Settings.KeepsClear (settings : Settings) (fs : FileSystem) (kept : List Place) : Prop :=
  ∀ directory front, settings.Permits directory front → ∀ root ∈ kept,
    Separate (fs.origin directory) directory root

variable {kept : List Place} {fs fs' : FileSystem}

/-- Where a directory lies depends on nothing but the working directory. -/
theorem Settings.KeepsClear.of_workingDirectory {settings : Settings}
    (h : settings.KeepsClear fs kept) (hworking : fs'.workingDirectory = fs.workingDirectory) :
    settings.KeepsClear fs' kept := by
  intro directory front hpermits root hroot
  rw [FileSystem.origin, hworking, ← FileSystem.origin]
  exact h directory front hpermits root hroot

/-- File systems with the same files where a source lies have the same class for it. -/
theorem ModSource.Settled.class?_of_sameFiles {s : σ} (h : ModSource.Settled kept s)
    (hfiles : SameFiles kept fs fs') (name : ClassName) :
    ModSource.class? fs' s name = ModSource.class? fs s name := by
  obtain ⟨place, halike⟩ := hfiles.exists_alike
  exact h.class? halike name

namespace Provider

/-- However many of the requests have been answered, the files at some places are those that were
there in the beginning. -/
def LeavesAlone (kept : List Place) (requests : List Request) (p : Provider σ ρ) : Prop :=
  ∀ front, front <+: requests → SameFiles kept p.files (asked front p).files

/-- One request leaves the files alone where settings keep clear. -/
theorem sameFiles_after (request : Request) {p : Provider σ ρ} (h : Closed p.files)
    (hclear : p.settings.KeepsClear p.files kept) :
    SameFiles kept p.files (request.after p).files := by
  rw [request.files_after p]
  refine .saveAll h fun s hs root hroot => ?_
  obtain ⟨directory, front, hpermits, hgoes⟩ := confined_of_mem_saves hs
  rw [FileSystem.lead_of_goesOn hgoes]
  exact (hclear directory front hpermits root hroot).not_prefix_append _

/-- So do all of them. -/
theorem leavesAlone_of_keepsClear (requests : List Request) {p : Provider σ ρ} (h : Closed p.files)
    (hclear : p.settings.KeepsClear p.files kept) : LeavesAlone kept requests p := by
  rintro front -
  induction front generalizing p with
  | nil => exact .refl h
  | cons request front ih =>
    have hfirst := sameFiles_after request h hclear
    have hclear' : (request.after p).settings.KeepsClear (request.after p).files kept := by
      rw [(request.keeps p).settings]
      exact hclear.of_workingDirectory hfirst.workingDirectory
    exact hfirst.trans (ih hfirst.closed' hclear')

namespace LeavesAlone

variable {request : Request} {rest : List Request} {p : Provider σ ρ}

/-- The next request leaves the files of the mod alone. -/
theorem after (h : LeavesAlone kept (request :: rest) p) :
    SameFiles kept p.files (request.after p).files :=
  h [request] (List.prefix_append [request] rest)

/-- What is left alone from the beginning is left alone from then on. -/
theorem tail (h : LeavesAlone kept (request :: rest) p) : LeavesAlone kept rest (request.after p) :=
  fun front hfront =>
    h.after.symm.trans (h (request :: front) (List.cons_prefix_cons.2 ⟨rfl, hfront⟩))

end LeavesAlone

/-! ## The moment a class is made -/

/-- The provider just before the request that makes a class ready. -/
def madeIn? (name : ClassName) : List Request → Provider σ ρ → Option (Provider σ ρ)
  | [], _ => none
  | request :: rest, p =>
    if name ∈ (request.after p).classes then some p else madeIn? name rest (request.after p)

/-- A class that the first request makes ready stays so, and was made when nothing had happened. -/
theorem madeIn?_cons_of_ready {request : Request} {p : Provider σ ρ} {name : ClassName}
    {contents : Bytes} (h : (request.after p).classes[name]? = some contents)
    (rest : List Request) : name ∈ (asked (request :: rest) p).classes ∧
      madeIn? name (request :: rest) p = some p := by
  have hmem : ∀ {q : Provider σ ρ}, q.classes[name]? = some contents → name ∈ q.classes :=
    fun hq => (Std.HashMap.getElem?_eq_some_iff.1 hq).1
  exact ⟨hmem (classes_asked rest h), if_pos (hmem h)⟩

/-- How a class was made: in a state that had come of the first requests, from the file that the
source has for it. -/
structure Made (name : ClassName) (p q : Provider σ ρ) (contents : Bytes) : Prop where
  settings : q.settings = p.settings
  renamer : ∃ requests, q = asked requests p
  encode : ∃ c, ModSource.class? p.files p.source name = some c ∧
    encode (q.served c) = .ok contents

/-- A class is ready exactly if it was made at some moment, and its bytes are those that it was
given then. -/
theorem made_of_madeIn? {requests : List Request} {p : Provider σ ρ} {name : ClassName}
    (hsettled : ModSource.Settled kept p.source) (halone : LeavesAlone kept requests p)
    (hfresh : name ∉ p.classes) (h : name ∈ (asked requests p).classes) :
    ∃ q contents, madeIn? name requests p = some q ∧
      (asked requests p).classes[name]? = some contents ∧ Made name p q contents := by
  induction requests generalizing p with
  | nil => exact absurd h hfresh
  | cons request rest ih =>
    have hkeeps := request.keeps p
    have hsource := hkeeps.source hsettled.steady
    by_cases hmade : name ∈ (request.after p).classes
    · obtain ⟨contents, hcontents⟩ : ∃ contents, (request.after p).classes[name]? = some contents :=
        ⟨_, Std.HashMap.getElem?_eq_some_getElem hmade⟩
      obtain ⟨c, hshowing, hencode⟩ := hkeeps.made name contents hfresh hcontents
      rw [showing?, if_neg hfresh] at hshowing
      exact ⟨p, contents, if_pos hmade, classes_asked rest hcontents, rfl, ⟨[], rfl⟩, c, hshowing,
        hencode⟩
    · have hsame := halone.after
      obtain ⟨q, contents, hq, hcontents, hsettings, ⟨before, hbefore⟩, c, hclass, hencode⟩ :=
        ih (hsource ▸ hsettled) halone.tail hmade h
      rw [hsource, hsettled.class?_of_sameFiles hsame] at hclass
      exact ⟨q, contents, (if_neg hmade).trans hq, hcontents, hsettings.trans hkeeps.settings,
        ⟨request :: before, hbefore⟩, c, hclass, hencode⟩

/-! ## A class and its super class -/

/-- The class is ready, with its own bytes. -/
theorem classes_family :
    (asked [.classBytes (.normalize "A"), .classBytes (.normalize "B")] family).classes[
      ClassName.normalize "A"]? = some ClassTree.callingBytes :=
  classes_asked [.classBytes (.normalize "B")] classes_after_family

/-- The class is asked for after its super class. -/
theorem classes_family_reversed :
    (asked [.classBytes (.normalize "B"), .classBytes (.normalize "A")] family).classes[
      ClassName.normalize "A"]? = some ClassTree.callingNewBytes := by
  have hstep := (Request.classBytes (.normalize "B")).step family
  have hkeeps := (Request.classBytes (.normalize "B")).keeps family
  have hshows : (Request.classBytes (.normalize "B")).shows family =
      [Request.showingOf family (.normalize "B") ClassTree.superClass] := by
    have hshowing : family.showing? (.normalize "B") = some ClassTree.superClass := by
      rw [showing?, if_neg (by simp [family, start])]
      exact class?_familyMod.2
    rw [Request.shows, Request.showing?, hshowing]
    rfl
  rw [hshows] at hstep
  show ((Request.classBytes (.normalize "A")).after
    ((Request.classBytes (.normalize "B")).after family)).classes[ClassName.normalize "A"]? = _
  generalize (Request.classBytes (.normalize "B")).after family = p at hstep hkeeps
  have hrenamer : p.renamer = Renamer.learn familyNames ClassTree.superClass := hstep.renamer
  have hnames : p.renamer.SameNames familyNames := by
    rw [hrenamer]
    exact (NameTable.SameNames.refl _).learn _
  have hfresh : ClassName.normalize "A" ∉ p.classes := by
    have hcount := hstep.count (.normalize "A")
    have hother : ClassName.normalize "B" ≠ ClassName.normalize "A" := by decide
    intro hmem
    simp [one, hmem, Request.showingOf, hother, family, start] at hcount
    omega
  have hshowing : p.showing? (.normalize "A") = some (.calling "m") := by
    have hsource : p.source = familyMod := hkeeps.source (MemorySource.steady _)
    rw [showing?, if_neg hfresh, hsource]
    exact class?_familyMod.1
  refine Request.classes_after hshowing ?_
  have hA : (Renamer.learn p.renamer (.calling "m")).supertypes["A"]? = some ["B"] :=
    Std.HashMap.getElem?_insert_self
  have hB : (Renamer.learn p.renamer (.calling "m")).supertypes["B"]? = some ["G"] := by
    show (p.renamer.supertypes.insert "A" ["B"])["B"]? = some ["G"]
    have hknown : p.renamer.supertypes["B"]? = some ["G"] := by
      rw [hrenamer]
      exact Std.HashMap.getElem?_insert_self
    simp [Std.HashMap.getElem?_insert, hknown]
  rw [served_family hnames, (method_family (hnames.learn _) hA).2 hB]
  exact ClassTree.encode_calling_new

/-! ## Another order -/

/-- Whatever two providers of the same mod have been asked for, and in whichever order, they have
the same bytes for a class that both have ready if, when they made it, their tables knew the same
about the classes that the searches for its new names pass. The mod may lie in the file systems that
the providers work in, as long as these have the same files for it and both providers leave them
alone. -/
theorem answered_alike (settings : Settings) {source : σ} (hsettled : ModSource.Settled kept source)
    (t : NameTable) {files files' : FileSystem} (hfiles : SameFiles kept files files')
    (log log' : Array Record) (requests requests' : List Request) (name : ClassName) :
    let p := start settings source t files log
    let p' := start settings source t files' log'
    LeavesAlone kept requests p → LeavesAlone kept requests' p' →
    name ∈ (asked requests p).classes → name ∈ (asked requests' p').classes →
    (∀ q ∈ madeIn? name requests p, ∀ q' ∈ madeIn? name requests' p',
      ∀ c ∈ ModSource.class? files source name,
        c.SeenAlike (Renamer.learn q.renamer c) (Renamer.learn q'.renamer c)) →
    ∃ contents, ((classBytes name).run (asked requests p)).1 = .ok (some contents) ∧
      ((classBytes name).run (asked requests' p')).1 = .ok (some contents) := by
  intro p p' halone halone' hready hready' halike
  obtain ⟨q, contents, hq, hcontents, hsettings, ⟨before, hbefore⟩, c, hclass, hencode⟩ :=
    made_of_madeIn? hsettled halone (by simp [p, start]) hready
  obtain ⟨q', contents', hq', hcontents', hsettings', ⟨before', hbefore'⟩, c', hclass', hencode'⟩ :=
    made_of_madeIn? hsettled halone' (by simp [p', start]) hready'
  have hsame : c' = c := by
    have hfile : ModSource.class? files source name = some c' :=
      (hsettled.class?_of_sameFiles hfiles name).symm.trans hclass'
    exact Option.some.inj (hfile.symm.trans hclass)
  subst hsame
  have hnames : (Renamer.learn q.renamer c').SameNames (Renamer.learn q'.renamer c') := by
    have hnames : q.renamer.SameNames t := hbefore ▸ sameNames_asked before p
    have hnames' : q'.renamer.SameNames t := hbefore' ▸ sameNames_asked before' p'
    exact (hnames.learn c').trans (hnames'.learn c').symm
  have hrenamed := ClassTree.rename_eq_of_seenAlike hnames (halike q hq q' hq' c' hclass)
  have hserved : q.served c' = q'.served c' := by
    rw [served, served, hrenamed, hsettings, hsettings']
    rfl
  rw [hserved, hencode'] at hencode
  cases hencode
  refine ⟨contents, ?_, ?_⟩
  · rw [run_classBytes_of_ready hcontents]
  · rw [run_classBytes_of_ready hcontents']

/-- The directory `mod` with the file of the class `A`, next to nothing else. -/
def modFiles : FileSystem :=
  (FileSystem.empty.insert ["mod"] .directory).insert ["mod", "A.class"]
    (.file ClassTree.callingBytes)

/-- Besides, there is a file that has nothing to do with the mod. -/
def moreFiles : FileSystem :=
  modFiles.insert ["notes"] (.file [])

/-- There is one file in one directory. -/
theorem node?_modFiles (place : Place) : modFiles.node? place =
    if ["mod", "A.class"] = place then some (.file ClassTree.callingBytes)
    else if place = [] ∨ place = ["mod"] then some .directory else none := by
  have hempty : FileSystem.empty.node? place = if place = [] then some .directory else none := by
    simp [FileSystem.node?, FileSystem.empty]
  rw [modFiles, FileSystem.node?_insert _ _ _ _ (by decide),
    FileSystem.node?_insert _ _ _ _ (by decide), hempty]
  split_ifs <;> simp_all

/-- The directory of the file is there. -/
theorem closed_modFiles : Closed modFiles := by
  refine ⟨fun place node h => ?_, rfl⟩
  rw [node?_modFiles] at h
  split at h
  · next hplace =>
    rw [← hplace, node?_modFiles]
    decide
  · split at h
    · next hplace => rcases hplace with rfl | rfl <;> rfl
    · cases h

/-- Both have the same files in `mod`. -/
theorem sameFiles_moreFiles : SameFiles [["mod"]] modFiles moreFiles := by
  have hfree : modFiles.node? ["notes"] = none := by simp [node?_modFiles]
  refine ⟨closed_modFiles, closed_modFiles.insert (by simp [hfree]) rfl _, rfl, ?_⟩
  intro root hroot other hother contents
  obtain rfl := List.mem_singleton.1 hroot
  rw [moreFiles, FileSystem.node?_insert _ _ _ _ (by decide), if_neg]
  rintro rfl
  revert hother
  decide

/-- Classes are put into `tmp` and mirrored in `dump`, both of which are next to `mod`. -/
def unpackedSettings : Settings :=
  { Settings.standard "/tmp" with dumpDirectory := some "/dump" }

/-- Nothing is saved where the mod is. -/
theorem keepsClear_unpackedSettings : unpackedSettings.KeepsClear modFiles [["mod"]] := by
  intro directory front hpermits root hroot
  obtain rfl := List.mem_singleton.1 hroot
  cases hpermits with
  | temporary => exact ⟨by decide, by decide⟩
  | classes hdump | resources hdump =>
    cases hdump
    exact ⟨by decide, by decide⟩

/-- What the mod answers depends on its own files. -/
theorem settled_unpacked : ModSource.Settled [["mod"]] (Mod.directory ⟨["mod"]⟩) :=
  Mod.settled (m := .directory ⟨["mod"]⟩) List.mem_cons_self (by decide)

/-- The class can be read wherever the same files are in `mod`. -/
theorem class?_unpacked {fs : FileSystem} (hfiles : SameFiles [["mod"]] modFiles fs) :
    ModSource.class? fs (Mod.directory ⟨["mod"]⟩) (.normalize "A") = some (.calling "m") := by
  rw [settled_unpacked.class?_of_sameFiles hfiles]
  have hresolve : DirectorySource.resolve ⟨["mod"]⟩ (ClassName.normalize "A").filePath =
      some "/mod/A.class" := by decide
  have hspells : FileSystem.Spells "/mod/A.class" ["mod", "A.class"] :=
    ⟨by decide, by decide, by decide⟩
  have hfind : modFiles.find "/mod/A.class" =
      .ok (["mod", "A.class"], .file ClassTree.callingBytes) := by
    refine FileSystem.find_eq_ok_iff.2 ⟨FileSystem.place_of_spells hspells ?_, node?_modFiles _⟩
    rintro (_ | _ | n) hn
    · rfl
    · exact node?_modFiles _
    · simp only [List.length_cons, List.length_nil] at hn
      omega
  refine ModSource.class?_eq_some_iff.2 ⟨?_, ClassTree.callingBytes, ?_, ClassTree.decode_calling⟩
  · show (DirectorySource.resolve ⟨["mod"]⟩ _).any modFiles.isFile = true
    rw [hresolve, Option.any_some, FileSystem.isFile, hfind]
  · simp only [ModSource.read, hresolve, FileSystem.read, hfind]
    rfl

/-- A provider of an unpacked mod is asked for the class, and then for a super class that the mod
does not have; another one, whose files differ elsewhere, is asked for the class and then for its
file. -/
theorem answered_alike_unpacked :
    let p := start unpackedSettings (Mod.directory ⟨["mod"]⟩) familyNames modFiles #[]
    let p' := start unpackedSettings (Mod.directory ⟨["mod"]⟩) familyNames moreFiles #[]
    ∃ contents,
      ((classBytes (.normalize "A")).run
          (asked [.classBytes (.normalize "A"), .classBytes (.normalize "B")] p)).1 =
        .ok (some contents) ∧
      ((classBytes (.normalize "A")).run
          (asked [.classBytes (.normalize "A"), .resource "A.class"] p')).1 =
        .ok (some contents) := by
  intro p p'
  have hsame : SameFiles [["mod"]] modFiles modFiles := .refl closed_modFiles
  have hready : ((Request.classBytes (.normalize "A")).after p).classes[ClassName.normalize "A"]? =
      some ClassTree.callingBytes :=
    ready_family rfl ((if_neg (by simp [p, start])).trans (class?_unpacked hsame))
  have hready' :
      ((Request.classBytes (.normalize "A")).after p').classes[ClassName.normalize "A"]? =
      some ClassTree.callingBytes :=
    ready_family rfl ((if_neg (by simp [p', start])).trans (class?_unpacked sameFiles_moreFiles))
  obtain ⟨hmem, hmade⟩ := madeIn?_cons_of_ready hready [.classBytes (.normalize "B")]
  obtain ⟨hmem', hmade'⟩ := madeIn?_cons_of_ready hready' [.resource "A.class"]
  have hclear := keepsClear_unpackedSettings
  refine answered_alike unpackedSettings settled_unpacked familyNames
    sameFiles_moreFiles #[] #[] _ _
    _ (leavesAlone_of_keepsClear _ closed_modFiles hclear) (leavesAlone_of_keepsClear _
      sameFiles_moreFiles.closed' (hclear.of_workingDirectory rfl)) hmem hmem'
      fun q hq q' hq' c _ => ?_
  -- Both make the class with the first request, so their tables are the same.
  cases hmade.symm.trans hq
  cases hmade'.symm.trans hq'
  exact .refl _ _

/-- Asked for in the other order, the class is another one. -/
theorem answered_differently : ∃ contents contents',
    ((classBytes (.normalize "A")).run
        (asked [.classBytes (.normalize "A"), .classBytes (.normalize "B")] family)).1 =
      .ok (some contents) ∧
    ((classBytes (.normalize "A")).run
        (asked [.classBytes (.normalize "B"), .classBytes (.normalize "A")] family)).1 =
      .ok (some contents') ∧ contents ≠ contents' := by
  refine ⟨ClassTree.callingBytes, ClassTree.callingNewBytes, ?_, ?_, ?_⟩
  · rw [run_classBytes_of_ready classes_family]
  · rw [run_classBytes_of_ready classes_family_reversed]
  · decide

end Provider

end Crosswalk
