import Crosswalk.Candidates
import Crosswalk.ClassTree.Reading
import Crosswalk.ClassTree.Writing
import Crosswalk.Patch
import Crosswalk.Provider.Fault
import Crosswalk.Renaming.Renamer
import Crosswalk.Renaming.Tree

/-!
# Providers

A provider serves the classes and the resources of a mod. A class is read, shown to the renamer,
renamed, patched and encoded once, and kept from then on; a failure is not kept. Along the way it
is found out whether the class looks like a configuration screen. Where a dump directory is set,
what is served is mirrored there, and it is only a warning if that fails.

A class is also served as a resource: it is then put into a file below the temporary directory.
Any other resource is left where the mod has it.
-/

namespace Crosswalk

/-- A provider over a source `σ` and a renamer `ρ`, with all that has come of its work so far. -/
structure Provider (σ ρ : Type) where
  settings : Settings
  source : σ
  renamer : ρ
  candidates : Candidates
  /-- The classes that are ready. -/
  classes : Std.HashMap ClassName Bytes
  /-- The files of the classes that have been served as resources. -/
  materialized : Std.HashMap ClassName Location
  files : FileSystem
  log : Array Record

/-- A step of a provider. What has been done stays done where it fails. -/
abbrev Serving (σ ρ : Type) := ExceptT ServeFault (StateM (Provider σ ρ))

namespace Provider

variable {σ ρ : Type}

/-- What is reported about a new provider. -/
def ready (s : Settings) : Record :=
  let dumps := s.dumpDirectory.getD "off"
  ⟨.info, s!"Class provider ready (development mode: {s.development}, dumps: {dumps})"⟩

/-- A provider that has served nothing yet. -/
def start (settings : Settings) (source : σ) (renamer : ρ) (files : FileSystem)
    (log : Array Record) : Provider σ ρ :=
  { settings, source, renamer, candidates := .empty, classes := ∅, materialized := ∅, files
    log := log.push (ready settings) }

/-! ## Parts of a step -/

/-- Reports something. -/
def report (level : Level) (message : String) : Serving σ ρ Unit :=
  modify fun p => { p with log := p.log.push ⟨level, message⟩ }

/-- Saves a file, and says whether that failed. -/
def trySave (path : String) (contents : Bytes) : Serving σ ρ (Except FileFault Unit) :=
  modifyGet fun p =>
    let (files, saved) := p.files.save path contents
    (saved, { p with files })

/-- Reads a file of the mod, and says whether that failed. -/
def tryRead [ModSource σ] (path : String) : Serving σ ρ (Except SourceFault Bytes) :=
  modifyGet fun p =>
    let (contents, source) := ModSource.read p.files p.source path
    (contents, { p with source })

/-- Whether the mod has a file. -/
def has [ModSource σ] (path : String) : Serving σ ρ Bool := do
  let p ← get
  pure (ModSource.has p.files p.source path)

/-- Goes on with an answer, or fails with the fault that `wrap` makes of the one it is given. -/
def orFail {ε α : Type} (wrap : ε → ServeFault) : Except ε α → Serving σ ρ α
  | .ok a => pure a
  | .error e => throw (wrap e)

/-- Shows a class to the renamer, and gives the class its new names. -/
def rename [Renamer ρ] (c : ClassTree) : Serving σ ρ ClassTree :=
  modifyGet fun p =>
    let renamer := Renamer.learn p.renamer c
    (c.rename (Renamer.current renamer), { p with renamer })

/-! ## Classes -/

/-- Adds a class to the candidates if it looks like a configuration screen. -/
def considerScreen (c : ClassTree) : Serving σ ρ Unit := do
  if c.isScreen (← get).settings then
    report .debug s!"{c.name} looks like a config screen"
    modify fun p => { p with candidates := p.candidates.add c.name }

/-- Applies the patches for development to a class. -/
def patch (c : ClassTree) : Serving σ ρ ClassTree := do
  let settings := (← get).settings
  let count := c.widenedCount settings
  if 0 < count then report .debug s!"Widened {count} methods of mixin {c.name}"
  pure (c.widen settings)

/-- Mirrors a class, where a dump directory is set. -/
def dumpClass (name : ClassName) (contents : Bytes) : Serving σ ρ Unit := do
  match (← get).settings.dumpDirectory with
  | none => pure ()
  | some directory =>
    let path := Path.below (Path.join directory "class") name.filePath
    match ← trySave path contents with
    | .ok () => pure ()
    | .error fault =>
      report .warn s!"Failed to dump class {name.text} to {path}: {fault.message}"

/-- Makes a class of the mod ready. -/
def transform [ModSource σ] [Renamer ρ] (name : ClassName) : Serving σ ρ (Option Bytes) := do
  if !(← has name.filePath) then
    report .debug s!"No class {name.text} in mod"
    return none
  report .debug s!"Transforming {name.text}"
  let raw ← orFail .source (← tryRead name.filePath)
  let c ← orFail (.malformed name) (decode raw)
  let renamed ← rename c
  considerScreen renamed
  let patched ← patch renamed
  let contents ← orFail (.overflow name) (encode patched)
  dumpClass name contents
  pure (some contents)

/-- The bytes of a class, with its new names. A class that is ready is not made ready again. -/
def classBytes [ModSource σ] [Renamer ρ] (name : ClassName) : Serving σ ρ (Option Bytes) := do
  match (← get).classes[name]? with
  | some contents => pure (some contents)
  | none =>
    let made ← transform name
    match made with
    | none => pure none
    | some contents =>
      modify fun p => { p with classes := p.classes.insert name contents }
      pure (some contents)

/-- A class, with its new names, as its bytes have it. -/
def classTree [ModSource σ] [Renamer ρ] (name : ClassName) : Serving σ ρ (Option ClassTree) := do
  match ← classBytes name with
  | none => pure none
  | some contents => do pure (some (← orFail (.malformed name) (decode contents)))

/-- The number of classes that are ready. -/
def classCount (p : Provider σ ρ) : Nat :=
  p.classes.size

/-! ## Resources -/

/-- Puts a class into a file below the temporary directory. -/
def materialize [ModSource σ] [Renamer ρ] (name : ClassName) : Serving σ ρ (Option Location) := do
  match ← classBytes name with
  | none => pure none
  | some contents =>
    let path := Path.below (← get).settings.tempDirectory name.filePath
    orFail (fun fault => .source (.file fault)) (← trySave path contents)
    report .debug s!"Materialized {name.text} at {path}"
    let directory := FileSystem.absolutePath (← get).files.workingDirectory
    pure (some (.ofPath directory path))

/-- The file of a class. A class that has one is not written again. -/
def classResource [ModSource σ] [Renamer ρ] (name : ClassName) :
    Serving σ ρ (Option Location) := do
  match (← get).materialized[name]? with
  | some location => pure (some location)
  | none =>
    let made ← materialize name
    match made with
    | none => pure none
    | some location =>
      modify fun p => { p with materialized := p.materialized.insert name location }
      pure (some location)

/-- Mirrors a resource, where a dump directory is set. -/
def dumpResource [ModSource σ] (name : String) : Serving σ ρ Unit := do
  match (← get).settings.dumpDirectory with
  | none => pure ()
  | some directory =>
    let path := Path.below (Path.join directory "resource") name
    let failed (why : String) : Serving σ ρ Unit :=
      report .warn s!"Failed to dump resource {name} to {path}: {why}"
    match ← tryRead name with
    | .error fault => failed fault.message
    | .ok contents =>
      match ← trySave path contents with
      | .error fault => failed fault.message
      | .ok () => pure ()

/-- The location of a resource that is no class. -/
def plainResource [ModSource σ] (name : String) : Serving σ ρ (Option Location) := do
  if !(← has name) then
    return none
  dumpResource name
  let p ← get
  let location ← orFail .source (ModSource.locate p.files p.source name)
  pure (some location.collapse)

/-- The location of a resource. -/
def resource [ModSource σ] [Renamer ρ] (name : String) : Serving σ ρ (Option Location) :=
  match ClassName.ofFilePath? name with
  | some name => classResource name
  | none => plainResource name

end Provider

end Crosswalk
