import Crosswalk.CommandLine.Run

/-!
# The program

Loads what a request can need into a file system, runs the request there, and puts the files that
have changed back onto the disk.
-/

namespace Crosswalk.Main

/-- The text of `--help`. -/
def helpText : String :=
  "Remap the classes of a LiteLoader mod into the runtime namespace\n\n" ++
  "Usage: crosswalk [OPTIONS] --mod <PATH> [CLASS]...\n\n" ++
  "Arguments:\n" ++
  "  [CLASS]...          Classes to remap (defaults to every class in the mod)\n\n" ++
  "Options:\n" ++
  "      --mod <PATH>        Mod to remap (an unpacked directory or an archive)\n" ++
  "      --mappings <TINY>   Tiny v2 mappings file (classes are left as-is without one)\n" ++
  "      --from <NAMESPACE>  Namespace the mod was compiled against [default: intermediary]\n" ++
  "      --to <NAMESPACE>    Namespace of the runtime [default: named]\n" ++
  "      --dev               Apply development environment patches\n" ++
  "      --output <DIR>      Where to write remapped classes [default: .]\n" ++
  "  -h, --help              Print help\n" ++
  "  -V, --version           Print version\n"

/-- The place of an absolute path, with all steps up taken. -/
def placeOf (path : String) : Place :=
  (Path.segments path).foldl (fun place segment =>
    if segment = ".." then place.dropLast
    else if Path.isName segment then place ++ [segment]
    else place) []

/-- A file system with something at a place, and directories above it. -/
def insertBelow (files : FileSystem) (place : Place) (node : FileNode) : FileSystem :=
  let above := (List.range place.length).map place.take
  (above.foldl (fun files place => files.insert place .directory) files).insert place node

/-- Loads a file, or a directory down to the given depth. What cannot be read is not there. -/
def load (files : FileSystem) (entry : IO.FS.DirEntry) : Nat → IO FileSystem
  | 0 => pure files
  | depth + 1 => do
    let place := placeOf entry.path.toString
    match ← entry.path.readDir.toBaseIO with
    | .ok entries =>
      entries.foldlM (fun files entry => load files entry depth)
        (insertBelow files place .directory)
    | .error _ =>
      match ← (IO.FS.readBinFile entry.path).toBaseIO with
      | .ok contents => pure (insertBelow files place (.file contents.toList))
      | .error _ => pure files

/-- No directory of a mod lies deeper than this. -/
def depthLimit : Nat := 256

/-- Loads the working directory without its files, and what a request reads. -/
def loadFor (invocation : CommandLine.Invocation) : IO FileSystem := do
  let here ← IO.currentDir
  let place := placeOf here.toString
  let files := insertBelow { FileSystem.empty with workingDirectory := place } place .directory
  match invocation with
  | .work request => do
    let paths := request.mod :: request.mappings.toList
    paths.foldlM (fun files path => load files ⟨here, path⟩ depthLimit) files
  | _ => pure files

/-- Puts files onto the disk. -/
def store (changes : List (Place × Bytes)) : IO Unit :=
  changes.forM fun (place, contents) => do
    let path := FileSystem.absolutePath place
    match Path.parent? path with
    | some directory => IO.FS.createDirAll directory
    | none => pure ()
    IO.FS.writeBinFile path ⟨contents.toArray⟩

/-- The least severe level that is shown. -/
def shownLevel (name : Option String) : Level :=
  match name with
  | some "debug" | some "trace" => .debug
  | some "info" => .info
  | some "warn" => .warn
  | _ => .error

/-- Shows the records that matter enough. -/
def showLog (shown : Level) (log : List Record) : IO Unit :=
  (log.filter fun r => r.level.rank ≤ shown.rank).forM fun r =>
    IO.eprintln s!"[{r.level.name}] {r.message}"

/-- Runs the command line, and answers with its exit code. -/
def run (arguments : List String) : IO UInt32 := do
  let before ← loadFor (.ofArguments arguments)
  let outcome := CommandLine.run arguments before helpText
  showLog (shownLevel (← IO.getEnv "CROSSWALK_LOG")) outcome.log
  store (before.changes outcome.files [])
  IO.print outcome.printed
  if outcome.exitCode = 2 then IO.eprint helpText
  pure (UInt32.ofNat outcome.exitCode)

end Crosswalk.Main

/-- The program. -/
def main (arguments : List String) : IO UInt32 :=
  Crosswalk.Main.run arguments
