import Crosswalk.Proofs.Provider.Resources
import Crosswalk.Proofs.Provider.Twins

/-!
# Dumps do not show

What a provider answers, keeps and tells its renamer does not depend on where it dumps what it
serves, on whether it dumps anything, and on whether that fails (`Provider.dumps_invisible`). Dumps
must keep away from where the provider works, though, and not only with the directory they end up
in: a path like `tmp/A.class/../../dump` passes through the temporary directory, and leaves
directories there (`Provider.dumps_in_the_way`).
-/

namespace Crosswalk

open FileSystem (Alike Closed Saving)

/-! ## Answers -/

/-- What a request is answered. -/
inductive Answer
  | bytes (contents : Option Bytes)
  | tree (c : Option ClassTree)
  | location (location : Option Location)

section Runs

open Provider

variable {σ ρ : Type} [ModSource σ] [Renamer ρ]

namespace Request

/-- Performs a request for its answer. -/
def ask : Request → Serving σ ρ Answer
  | classBytes name => do return .bytes (← Provider.classBytes name)
  | classTree name => do return .tree (← Provider.classTree name)
  | resource path => do return .location (← Provider.resource path)

/-- Asking leaves behind what performing does. -/
theorem after_eq (request : Request) (p : Provider σ ρ) :
    request.after p = (request.ask.run p).2 := by
  have hperform : request.perform = (request.ask >>= fun _ => pure () : Serving σ ρ Unit) := by
    cases request <;> simp only [perform, ask, bind_assoc, pure_bind]
  rw [after, hperform]
  exact view_run_bind id _ (fun _ _ => rfl) p

end Request

namespace Event

/-- What an event is answered, if it is a request. -/
def answer? : Event σ → Provider σ ρ → Option (Except ServeFault Answer)
  | asked request, p => some (request.ask.run p).1
  | changed _ _, _ => none

/-- What is answered in order. -/
def answers : List (Event σ) → Provider σ ρ → List (Except ServeFault Answer)
  | [], _ => []
  | event :: rest, p => (event.answer? p).toList ++ answers rest (event.after p)

/-- What happens at two providers that work at the same site: the same request, or a change of the
files around them that comes to the same where they work. -/
inductive Parallel (site : Site) : Event σ → Event σ → Prop
  | asked (request : Request) : Parallel site (.asked request) (.asked request)
  | changed {source : σ} {files files' : FileSystem} (hsettled : ModSource.Settled site.mod source)
    (hfiles : site.Beside files files') :
    Parallel site (.changed source files) (.changed source files')

end Event

/-! ## Two runs -/

namespace Provider

variable {site : Site} {p q : Provider σ ρ}

/-- No request sees the dumps. -/
theorem Blind.ask (request : Request) : Blind site (request.ask : Serving σ ρ Answer) := by
  cases request with
  | classBytes name => exact .bind (.classBytes name) fun contents => .pure _
  | classTree name => exact .bind (.classTree name) fun c => .pure _
  | resource path => exact .bind (.resource path) fun location => .pure _

namespace Twin

/-- Twins show the same to their renamers. -/
theorem shows (h : Twin site p q) (request : Request) : request.shows q = request.shows p := by
  have hclass : ∀ name, q.showing? name = p.showing? name := by
    intro name
    rw [Provider.showing?, Provider.showing?, h.classes, h.source,
      h.settled.class? h.files.alike]
  have hshowing : request.showing? q = request.showing? p := by
    cases request with
    | classBytes name | classTree name => simp only [Request.showing?, hclass]
    | resource path => simp only [Request.showing?, hclass, h.materialized]
  have hof : ∀ name c, Request.showingOf q name c = Request.showingOf p name c := by
    intro name c
    simp only [Request.showingOf, h.renamer, h.isScreen]
  simp only [Request.shows, hshowing, hof]

/-- What happens to twins makes no difference between them. -/
theorem step {event event' : Event σ} (h : Twin site p q) (hparallel : event.Parallel site event') :
    event'.answer? q = event.answer? p ∧ event'.shows q = event.shows p ∧
      Twin site (event.after p) (event'.after q) := by
  cases hparallel with
  | asked request =>
    obtain ⟨hanswer, htwin⟩ := Blind.ask request p q h
    refine ⟨congrArg some hanswer, h.shows request, ?_⟩
    show Twin site (request.after p) (request.after q)
    rwa [request.after_eq, request.after_eq]
  | changed hsettled hfiles =>
    exact ⟨rfl, rfl, { h with source := rfl, settled := hsettled, files := hfiles }⟩

/-- A whole run makes no difference between twins. -/
theorem run {events events' : List (Event σ)} (h : Twin site p q)
    (hparallel : List.Forall₂ (Event.Parallel site) events events') :
    Event.answers events' q = Event.answers events p ∧
      Event.showings events' q = Event.showings events p ∧
      Twin site (Event.afterAll events p) (Event.afterAll events' q) := by
  induction hparallel generalizing p q with
  | nil => exact ⟨rfl, rfl, h⟩
  | cons hevent _ ih =>
    obtain ⟨hanswer, hshows, htwin⟩ := h.step hevent
    obtain ⟨hanswers, hshowings, hlast⟩ := ih htwin
    refine ⟨?_, ?_, hlast⟩
    · rw [Event.answers, Event.answers, hanswer, hanswers]
    · rw [Event.showings, Event.showings, hshows, hshowings]

end Twin

end Provider

end Runs

/-! ## Dumps in the way -/

namespace Provider

section Placing

variable {σ ρ : Type} [ModSource σ] [Renamer ρ] {p : Provider σ ρ} {name : ClassName}
    {c : ClassTree}
  {contents : Bytes}

/-- A class that is made ready is mirrored. -/
theorem mirrorings_of_showing? (hshowing : p.showing? name = some c)
    (hencode : encode (p.served c) = .ok contents) :
    p.mirrorings name = mirror p.settings "class" name.filePath contents := by
  have hfresh : name ∉ p.classes := fun hmem => by
    rw [showing?, if_pos hmem] at hshowing
    cases hshowing
  rw [showing?, if_neg hfresh] at hshowing
  rw [mirrorings, if_neg hfresh]
  obtain ⟨hhas', raw', hread', hdecode'⟩ := ModSource.class?_eq_some_iff.1 hshowing
  have hclass : ∀ {raw : Bytes} {source : σ},
      ModSource.read p.files p.source name.filePath = (.ok raw, source) → decode raw = .ok c := by
    intro raw source hread
    rw [hread] at hread'
    cases hread'
    exact hdecode'
  have htransforms := transforms name p
  generalize (transform name).run p = outcome at htransforms
  obtain ⟨r, q⟩ := outcome
  -- The file is read as that class, so no ending is left but the one with its bytes.
  cases htransforms with
  | absent log hhas => cases hhas.symm.trans hhas'
  | unreadable log hhas hread =>
    rw [hread] at hread'
    cases hread'
  | malformed log hhas hread hdecode => cases hdecode.symm.trans (hclass hread)
  | overflow log hhas hread hdecode hfault =>
    cases hdecode.symm.trans (hclass hread)
    cases hfault.symm.trans hencode
  | ready log files hhas hread hdecode hmade =>
    cases hdecode.symm.trans (hclass hread)
    cases hmade.symm.trans hencode
    rfl

/-- What is answered for the file of a class once it has been saved, or that has failed. -/
def answerOf (location : Location) : Except FileFault Unit → Except ServeFault (Option Location)
  | .ok () => .ok (some location)
  | .error fault => .error (.source (.file fault))

/-- A class that is served as a resource for the first time is mirrored and then put into its file,
whose location is answered unless that fails. -/
theorem answer_classResource (hplaced : name ∉ p.materialized) (hshowing : p.showing? name = some c)
    (hencode : encode (p.served c) = .ok contents) {path : String}
    (hpath : Path.below p.settings.tempDirectory name.filePath = path) {files : FileSystem}
    (hfiles : p.files.saveAll (mirror p.settings "class" name.filePath contents) = files) :
    ((classResource name).run p).1 = answerOf
      (.ofPath (FileSystem.absolutePath p.files.workingDirectory) path)
      (files.save path contents).2 := by
  have hsaves := saves_classBytes name p
  rw [mirrorings_of_showing? hshowing hencode] at hsaves
  obtain ⟨first, hrun, haside⟩ := run_classBytes_of_showing? hshowing hencode
  have hfirst : first.files = files := by
    have hsame := hsaves.files
    rwa [hrun, hfiles] at hsame
  have hsettings : first.settings = p.settings := haside.settings
  have hworking : (files.save path contents).1.workingDirectory = p.files.workingDirectory := by
    rw [(FileSystem.grows_save ..).workingDirectory, ← hfiles,
      (FileSystem.grows_saveAll ..).workingDirectory]
  rw [run_classResource_of_missing hplaced, bind_assoc, run_bind_ok hrun]
  rw [← hsettings] at hpath
  rcases hsave : files.save path contents with ⟨last, saved⟩
  rw [hsave] at hworking
  rcases run_place_some hpath (hfirst ▸ hsave) with ⟨log, rfl, hplace⟩ | ⟨fault, rfl, hplace⟩
  · rw [run_bind_ok hplace, ← hworking]
    rfl
  · rw [run_bind_error hplace]
    rfl

end Placing

/-! ## A class of the name of a directory -/

/-- The directories `tmp` and `dump/class`. -/
def prepared : FileSystem :=
  ((FileSystem.empty.insert ["tmp"] .directory).insert ["dump"] .directory).insert ["dump", "class"]
    .directory

/-- A provider of two classes `A` and `/A` that has served nothing yet. -/
def waiting (temp : String) (dump : Option String) : Provider MemorySource (Option NameTable) :=
  start { Settings.standard temp with dumpDirectory := dump } twinMod none prepared #[]

/-- There are four directories at first. -/
theorem node?_prepared (place : Place) : prepared.node? place =
    if place ∈ [[], ["tmp"], ["dump"], ["dump", "class"]] then some .directory else none := by
  have hempty : FileSystem.empty.node? place = if place = [] then some .directory else none := by
    simp [FileSystem.node?, FileSystem.empty]
  rw [prepared, FileSystem.node?_insert _ _ _ _ (by decide),
    FileSystem.node?_insert _ _ _ _ (by decide),
    FileSystem.node?_insert _ _ _ _ (by decide), hempty]
  simp only [List.mem_cons, List.not_mem_nil, or_false, eq_comm (b := place)]
  split_ifs <;> simp_all

/-- Each directory is in another one. -/
theorem closed_prepared : Closed prepared := by
  refine ⟨fun place node h => ?_, rfl⟩
  rw [node?_prepared] at h ⊢
  split at h
  · next hmem =>
    rw [if_pos]
    revert place
    decide
  · cases h

/-- The class `A` is mirrored and then put into its file. -/
theorem answer_waiting {temp path : String} {dump : Option String} {saves : List Saving}
    (hpath : Path.below temp "A.class" = path)
    (hsaves : mirror { Settings.standard temp with dumpDirectory := dump } "class" "A.class"
      ClassTree.callingBytes = saves) :
    ((resource "A.class").run (waiting temp dump)).1 = answerOf (.ofPath "/" path)
      ((prepared.saveAll saves).save path ClassTree.callingBytes).2 := by
  have hname : ClassName.ofFilePath? "A.class" = some (.normalize "A") ∧
      (ClassName.normalize "A").filePath = "A.class" := by decide
  have hshowing : (waiting temp dump).showing? (.normalize "A") = some (.calling "m") := by
    rw [showing?, if_neg (by simp [waiting, start])]
    exact MemorySource.class?_of_lookup (by rw [hname.2]; rfl) ClassTree.decode_calling
  have hencode : encode ((waiting temp dump).served (.calling "m")) = .ok ClassTree.callingBytes :=
    ClassTree.encode_calling_widen _
  have hworking : FileSystem.absolutePath (waiting temp dump).files.workingDirectory = "/" := rfl
  rw [resource, hname.1]
  simp only
  have hfiles : (waiting temp dump).files.saveAll (mirror (waiting temp dump).settings "class"
      (ClassName.normalize "A").filePath ClassTree.callingBytes) = prepared.saveAll saves := by
    rw [hname.2, ← hsaves]
    rfl
  rw [answer_classResource (by simp [waiting, start]) hshowing hencode
    (hname.2.symm ▸ hpath) hfiles,
    hworking]

/-! ### Saves -/

/-- None of the names is too long. -/
theorem size_names : ¬ FileSystem.nameLimit < "tmp".utf8ByteSize ∧
    ¬ FileSystem.nameLimit < "dump".utf8ByteSize ∧ ¬ FileSystem.nameLimit < "class".utf8ByteSize ∧
    ¬ FileSystem.nameLimit < "A.class".utf8ByteSize := by
  decide

/-- Where a relative path leads from the root. -/
theorem place_at_root {fs : FileSystem} {path : String} (l : List String)
    (hworking : fs.workingDirectory = []) (hpath : FileSystem.refusal? path = none ∧
      Path.isAbsolute path = false ∧ FileSystem.steps path = l) : fs.place path = fs.walk [] l := by
  rw [FileSystem.place_eq, hpath.1, hpath.2.2, FileSystem.origin, hpath.2.1, hworking]
  rfl

/-- The file of the class is put into `tmp`, and its mirror into `dump/class`. -/
theorem save_prepared (contents : Bytes) :
    prepared.save "tmp/A.class" contents =
        (prepared.insert ["tmp", "A.class"] (.file contents), .ok ()) ∧
      prepared.save "dump/class/A.class" contents =
        (prepared.insert ["dump", "class", "A.class"] (.file contents), .ok ()) := by
  have hparent : Path.parent? "tmp/A.class" = some "tmp" ∧
      Path.parent? "dump/class/A.class" = some "dump/class" := by decide
  have htmp : prepared.place "tmp" = .ok ["tmp"] ∧
      prepared.place "tmp/A.class" = .ok ["tmp", "A.class"] := by
    rw [place_at_root ["tmp"] rfl (by decide), place_at_root ["tmp", "A.class"] rfl (by decide)]
    simp [FileSystem.walk, node?_prepared, size_names]
  have hdump : prepared.place "dump/class" = .ok ["dump", "class"] ∧
      prepared.place "dump/class/A.class" = .ok ["dump", "class", "A.class"] := by
    rw [place_at_root ["dump", "class"] rfl (by decide),
      place_at_root ["dump", "class", "A.class"] rfl (by decide)]
    simp [FileSystem.walk, node?_prepared, size_names]
  constructor
  · refine FileSystem.save_of_directory hparent.1 (by decide) htmp.1 ?_ htmp.2 ?_ contents <;>
      simp [node?_prepared]
  · refine FileSystem.save_of_directory hparent.2 (by decide) hdump.1 ?_ hdump.2 ?_ contents <;>
      simp [node?_prepared]

/-- On the way to the mirror `tmp/A.class` is made a directory. -/
theorem opened_through_tmp : prepared.opened "tmp/A.class/../../dump/class/A.class" =
    (prepared.insert ["tmp", "A.class"] .directory, .ok ()) := by
  have hsignificant : Path.significant "tmp/A.class/../../dump/class/A.class" =
      ["tmp", "A.class"] ++ ["..", "..", "dump", "class"] ++ ["A.class"] := by decide
  have hmore : (prepared.insert ["tmp", "A.class"] .directory).walk ["tmp", "A.class"]
      ["..", "..", "dump", "class"] = .ok ["dump", "class"] := by
    simp [FileSystem.walk, FileSystem.node?_insert, node?_prepared, size_names]
  refine FileSystem.opened_of_missing hsignificant (by decide) (by decide) ?_ ?_ hmore ?_
  · show prepared.walk [] ["tmp", "A.class"] = _
    simp [FileSystem.walk, node?_prepared, size_names]
  · simp [node?_prepared]
  · simp [FileSystem.node?_insert, node?_prepared]

/-- On the way to the file `dump/class/A.class` is made a directory. -/
theorem opened_through_dump : prepared.opened "dump/class/A.class/../../../tmp/A.class" =
    (prepared.insert ["dump", "class", "A.class"] .directory, .ok ()) := by
  have hsignificant : Path.significant "dump/class/A.class/../../../tmp/A.class" =
      ["dump", "class", "A.class"] ++ ["..", "..", "..", "tmp"] ++ ["A.class"] := by decide
  have hmore : (prepared.insert ["dump", "class", "A.class"] .directory).walk
      ["dump", "class", "A.class"] ["..", "..", "..", "tmp"] = .ok ["tmp"] := by
    simp [FileSystem.walk, FileSystem.node?_insert, node?_prepared, size_names]
  refine FileSystem.opened_of_missing hsignificant (by decide) (by decide) ?_ ?_ hmore ?_
  · show prepared.walk [] ["dump", "class", "A.class"] = _
    simp [FileSystem.walk, node?_prepared, size_names]
  · simp [node?_prepared]
  · simp [FileSystem.node?_insert, node?_prepared]

/-- The file cannot be put where `tmp/A.class` has become a directory. -/
theorem save_behind_tmp (contents : Bytes) :
    ((prepared.save "tmp/A.class/../../dump/class/A.class" contents).1.save "tmp/A.class"
      contents).2 = .error .isADirectory := by
  have hgrows := FileSystem.grows_opened prepared "tmp/A.class/../../dump/class/A.class" contents
  rw [opened_through_tmp] at hgrows
  generalize (prepared.save "tmp/A.class/../../dump/class/A.class" contents).1 = files at hgrows
  have hparent : Path.parent? "tmp/A.class" = some "tmp" := by decide
  have htmp : files.node? ["tmp"] = some .directory :=
    hgrows.directory _ (by simp [FileSystem.node?_insert, node?_prepared])
  have hfile : files.node? ["tmp", "A.class"] = some .directory :=
    hgrows.directory _ (by simp [FileSystem.node?_insert])
  have hplace : files.place "tmp" = .ok ["tmp"] ∧
      files.place "tmp/A.class" = .ok ["tmp", "A.class"] := by
    rw [place_at_root ["tmp"] hgrows.workingDirectory (by decide),
      place_at_root ["tmp", "A.class"] hgrows.workingDirectory (by decide)]
    simp [FileSystem.walk, htmp, size_names]
  have hopened := FileSystem.opened_of_directory hparent (by decide) hplace.1 htmp
  rw [FileSystem.save_of_opened hopened, hplace.2]
  simp only [if_pos hfile]

/-- The file can be put into `tmp` by way of a directory that is made. -/
theorem save_through_dump (contents : Bytes) :
    (prepared.save "dump/class/A.class/../../../tmp/A.class" contents).2 = .ok () := by
  have hplace : (prepared.insert ["dump", "class", "A.class"] .directory).place
      "dump/class/A.class/../../../tmp/A.class" = .ok ["tmp", "A.class"] := by
    rw [place_at_root ["dump", "class", "A.class", "..", "..", "..", "tmp", "A.class"]
      rfl (by decide)]
    simp [FileSystem.walk, FileSystem.node?_insert, node?_prepared, size_names]
  rw [FileSystem.save_of_opened opened_through_dump, hplace]
  simp [FileSystem.node?_insert, node?_prepared]

/-- There is no way through the mirror, which is a file. -/
theorem save_behind_dump (contents : Bytes) :
    ((prepared.save "dump/class/A.class" contents).1.save "dump/class/A.class/../../../tmp/A.class"
      contents).2 = .error .notADirectory := by
  have hsignificant : Path.significant "dump/class/A.class/../../../tmp/A.class" =
      ["dump", "class", "A.class", "..", "..", "..", "tmp"] ++ ["A.class"] := by decide
  have hplace : (prepared.insert ["dump", "class", "A.class"] (.file contents)).place
      "dump/class/A.class/../../../tmp" = .error .notADirectory := by
    rw [place_at_root ["dump", "class", "A.class", "..", "..", "..", "tmp"] rfl (by decide)]
    simp [FileSystem.walk, FileSystem.node?_insert, node?_prepared, size_names]
  have hpath : Path.ofSegments false ["dump", "class", "A.class", "..", "..", "..", "tmp"] =
      "dump/class/A.class/../../../tmp" := by decide
  have hopened : (prepared.insert ["dump", "class", "A.class"] (.file contents)).opened
      "dump/class/A.class/../../../tmp/A.class" =
        (prepared.insert ["dump", "class", "A.class"] (.file contents), .error .notADirectory) := by
    rw [FileSystem.opened_eq _ hsignificant, Path.chain_eq_cons]
    refine FileSystem.createAlong_of_error ?_ ?_ (by simp)
    · decide
    · exact (congrArg _ hpath).trans hplace
  rw [(save_prepared contents).2, FileSystem.save_of_failed hopened]

/-! ## Dumps make no difference -/

section

variable {σ ρ : Type} [ModSource σ] [Renamer ρ]

/-- Two providers of one mod that differ only in their dump directories answer the same to the same
requests, with the same classes and files of classes in the end, the same classes shown to the
renamer and the same candidates, whatever their dumps come to. The temporary directory must be
within reach, and the dump directories must keep away from it and lie apart from the mod. -/
theorem dumps_invisible (site : Site) (settings : Settings) (dump : Option String)
    {source : σ} (r : ρ)
    {files files' : FileSystem} (log log' : Array Record) {events events' : List (Event σ)}
    (htemp : settings.tempDirectory = site.temp)
    (havoids : ∀ directory ∈ settings.dumpDirectory, site.Avoids directory)
    (havoids' : ∀ directory ∈ dump, site.Avoids directory)
    (hsettled : ModSource.Settled site.mod source) (hfiles : site.Beside files files')
    (hevents : List.Forall₂ (Event.Parallel site) events events') :
    let p := start settings source r files log
    let q := start { settings with dumpDirectory := dump } source r files' log'
    let p' := Event.afterAll events p
    let q' := Event.afterAll events' q
    Event.answers events' q = Event.answers events p ∧ q'.classes = p'.classes ∧
      q'.materialized = p'.materialized ∧ Event.showings events' q = Event.showings events p ∧
      q'.renamer = p'.renamer ∧ q'.candidates = p'.candidates ∧
      ∀ place, site.place <+: place → q'.files.node? place = p'.files.node? place := by
  intro p q p' q'
  have hstart : Twin site p q :=
    ⟨rfl, htemp, havoids, havoids', rfl, hsettled, rfl, rfl, rfl, rfl, hfiles⟩
  obtain ⟨hanswers, hshowings, hend⟩ := hstart.run hevents
  exact ⟨hanswers, hend.classes, hend.materialized, hshowings, hend.renamer, hend.candidates,
    hend.files.alike.node⟩

end

/-- The file system where the mirror of the class is a directory, so that it cannot be saved. -/
def blocked : FileSystem :=
  prepared.insert ["dump", "class", "A.class"] .directory

/-- The file that is in the way is beside the temporary directory. -/
theorem beside_blocked : Site.Beside ⟨[], "tmp", ["tmp"], []⟩ prepared blocked := by
  have hreaches : prepared.Reaches "tmp" ["tmp"] :=
    FileSystem.reaches_of_names closed_prepared (by decide)
  have hnone : prepared.node? ["dump", "class", "A.class"] = none := by simp [node?_prepared]
  refine ⟨.of_insert closed_prepared (by simp [hnone]) (by simp [node?_prepared]) (by decide)
    fun _ => ⟨rfl, hnone⟩, rfl, hreaches, hreaches.grows (.insert (by simp [hnone]) _)⟩

/-- A provider that dumps nothing and one whose dumps fail. -/
theorem dumps_invisible_blocked :
    let site : Site := ⟨[], "tmp", ["tmp"], []⟩
    let p := waiting "tmp" none
    let q := start { Settings.standard "tmp" with dumpDirectory := some "dump" } twinMod
      (none : Option NameTable) blocked #[]
    let events := [Event.asked (.resource "A.class"), .asked (.classTree (.normalize "/A"))]
    site.Avoids "dump" ∧ site.Beside p.files q.files ∧
      Event.answers events q = Event.answers events p ∧
      (Event.afterAll events q).materialized = (Event.afterAll events p).materialized := by
  intro site p q events
  have havoids : site.Avoids "dump" :=
    ⟨.of_names (by decide) ⟨by decide, by decide⟩, nofun⟩
  have hevents : List.Forall₂ (Event.Parallel site) events events :=
    .cons (.asked _) (.cons (.asked _) .nil)
  have hsame := dumps_invisible site p.settings (some "dump") (none : Option NameTable) #[] #[] rfl
    nofun (fun directory hdump => Option.some.inj hdump ▸ havoids) (MemorySource.settled _ twinMod)
    beside_blocked hevents
  exact ⟨havoids, beside_blocked, hsame.1, hsame.2.2.1⟩

/-- Dumps show where the path of their directory passes through the temporary directory, and where
the path of the temporary directory passes through them, even if neither lies in the other. -/
theorem dumps_in_the_way :
    let dump := "tmp/A.class/../../dump"
    let temp := "dump/class/A.class/../../../tmp"
    let target := "dump/class/A.class/../../../tmp/A.class"
    FileSystem.lead [] (Path.significant dump) = ["dump"] ∧
      ((resource "A.class").run (waiting "tmp" none)).1 = .ok (some (.ofPath "/" "tmp/A.class")) ∧
      ((resource "A.class").run (waiting "tmp" (some dump))).1 =
        .error (.source (.file .isADirectory)) ∧
      FileSystem.lead [] (Path.significant temp) = ["tmp"] ∧
      ((resource "A.class").run (waiting temp none)).1 = .ok (some (.ofPath "/" target)) ∧
      ((resource "A.class").run (waiting temp (some "dump"))).1 =
        .error (.source (.file .notADirectory)) := by
  intro dump temp target
  have htmp : Path.below "tmp" "A.class" = "tmp/A.class" := by decide
  have htarget : Path.below temp "A.class" = target := by decide
  have hdump : Path.below (Path.join "dump" "class") "A.class" = "dump/class/A.class" := by decide
  have hway : Path.below (Path.join dump "class") "A.class" =
      "tmp/A.class/../../dump/class/A.class" := by decide
  have hmirror : ∀ {temp dump path}, Path.below (Path.join dump "class") "A.class" = path →
      mirror { Settings.standard temp with dumpDirectory := some dump } "class" "A.class"
        ClassTree.callingBytes = [⟨path, ClassTree.callingBytes⟩] := by
    rintro temp dump _ rfl
    rfl
  have hnone :
      ∀ {temp}, mirror { Settings.standard temp with dumpDirectory := none } "class" "A.class"
      ClassTree.callingBytes = [] := rfl
  refine ⟨by decide, ?_, ?_, by decide, ?_, ?_⟩
  · rw [answer_waiting htmp hnone, FileSystem.saveAll, (save_prepared _).1]
    rfl
  · rw [answer_waiting htmp (hmirror hway), FileSystem.saveAll, FileSystem.saveAll, save_behind_tmp]
    rfl
  · rw [answer_waiting htarget hnone, FileSystem.saveAll, save_through_dump]
    rfl
  · rw [answer_waiting htarget (hmirror hdump), FileSystem.saveAll, FileSystem.saveAll,
      save_behind_dump]
    rfl

end Provider

end Crosswalk
