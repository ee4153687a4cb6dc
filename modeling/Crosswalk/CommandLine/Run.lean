import Crosswalk.CommandLine.Invocation
import Crosswalk.Provider.Basic
import Crosswalk.Renaming.NameTable
import Crosswalk.Source.Mod

/-!
# The command line

The classes of a mod are written with their new names into an output directory, and the candidates
for configuration screens are printed. `run` does this in a file system, and answers with what it
has become.
-/

namespace Crosswalk.CommandLine

/-- What has come of a run. -/
structure Outcome where
  exitCode : Nat
  printed : String
  log : List Record
  files : FileSystem

/-- What `--version` prints. -/
def versionText : String := "LiteLoader mod remapper 0.1.0\n"

/-- A run that reports to a log, may change files, and may fail. -/
abbrev Run := ExceptT ServeFault (StateM (FileSystem × Array Record))

/-- Reports something. -/
def report (level : Level) (message : String) : Run Unit :=
  modify fun (files, log) => (files, log.push ⟨level, message⟩)

/-- Goes on with an answer, or fails with the fault that `wrap` makes of the one it is given. -/
def orFail {ε α : Type} (wrap : ε → ServeFault) : Except ε α → Run α
  | .ok a => pure a
  | .error e => throw (wrap e)

/-- The mappings in a file. -/
def readMappings (path : String) : Run Mappings := do
  report .info s!"Reading mappings '{path}'"
  match (← get).1.read path with
  | .error fault => throw (.mappings (.unreadable fault))
  | .ok contents => orFail .mappings (Mappings.ofBytes contents)

/-- Goes on with what mappings have for a namespace. -/
def orUnknown {α : Type} : Except UnknownNamespace α → Run α :=
  orFail fun e => .mappings (.unknownNamespace e.name)

/-- Tells the settings the base classes of configuration screens. -/
def resolveScreens (settings : Settings) (resolver : Resolver) : Run Settings := do
  let (settings, records) := settings.resolveScreenBases resolver
  modify fun (files, log) => (files, log ++ records)
  pure settings

/-- The settings and the names to go by. -/
def prepare (r : Request) : Run (Settings × Option NameTable) := do
  let settings : Settings :=
    { Settings.standard "" with development := r.development, dumpDirectory := none }
  match r.mappings with
  | none => do pure (← resolveScreens settings .single, none)
  | some path => do
    let mappings ← readMappings path
    let settings ← resolveScreens settings (← orUnknown (mappings.resolver r.target))
    let table ← orUnknown (mappings.table r.source r.target)
    pure (settings, some table)

/-- Writes the class of a name, or reports that there is none. -/
def writeClass (output : String) (name : ClassName) : Serving Mod (Option NameTable) Unit := do
  match ← Provider.classBytes name with
  | none => Provider.report .error s!"No class '{name.text}' in mod"
  | some contents =>
    let path := Path.join output name.filePath
    Provider.report .info s!"Writing '{path}'"
    let saved ← Provider.trySave path contents
    Provider.orFail (fun fault => .source (.file fault)) saved

/-- The classes that are asked for, or all that the mod has. -/
def classNames (r : Request) (files : FileSystem) (mod : Mod) : List ClassName :=
  if r.classes.isEmpty then (ModSource.entries files mod).filterMap ClassName.ofFilePath?
  else r.classes.map ClassName.normalize

/-- Does a step of a provider within the run. -/
def serve {α σ ρ : Type} (provider : Provider σ ρ) (step : Serving σ ρ α) : Run Candidates := do
  let (result, provider) := (ExceptT.run step).run provider
  set (provider.files, provider.log)
  match result with
  | .ok _ => pure provider.candidates
  | .error fault => throw fault

/-- Does what is asked for, and finds the candidates. -/
def work (r : Request) : Run Candidates := do
  report .info s!"Opening mod '{r.mod}'"
  let mod ← orFail .source (Mod.ofPath (← get).1 r.mod)
  let (settings, table) ← prepare r
  let (files, log) ← get
  let names := classNames r files mod
  serve (.start settings mod table files log) (names.forM (writeClass r.output))

/-- A name with dots for slashes. -/
def printedName (name : String) : String :=
  (ClassName.normalize name).dotted ++ "\n"

/-- Runs a request. A failure is reported, and ends with code 1. -/
def runRequest (r : Request) (files : FileSystem) : Outcome :=
  match (ExceptT.run (work r)).run (files, #[]) with
  | (.ok candidates, files, log) =>
    ⟨0, String.join (candidates.names.map printedName), log.toList, files⟩
  | (.error fault, files, log) =>
    ⟨1, "", (log.push ⟨.error, fault.message⟩).toList, files⟩

/-- Runs the command line with its arguments. -/
def run (arguments : List String) (files : FileSystem) (helpText : String) : Outcome :=
  match Invocation.ofArguments arguments with
  | .work r => runRequest r files
  | .help => ⟨0, helpText, [], files⟩
  | .version => ⟨0, versionText, [], files⟩
  | .misuse => ⟨2, "", [], files⟩

end Crosswalk.CommandLine
