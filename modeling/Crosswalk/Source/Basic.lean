import Crosswalk.Archive.Fault
import Crosswalk.Files.FileSystem
import Crosswalk.Location

/-!
# Sources of mods

A mod is a set of files that are read by their paths, wherever it keeps them.
-/

namespace Crosswalk

/-- Why a file of a mod cannot be had, or a file for a mod cannot be written. -/
inductive SourceFault
  | file (fault : FileFault)
  | archive (fault : ArchiveFault)
  | noEntry (path : String)
  | notADirectory (path : String)
  | other (message : String)
  deriving DecidableEq, Repr

/-- The wording of a fault. -/
def SourceFault.message : SourceFault → String
  | file fault => fault.message
  | archive fault => fault.message
  | noEntry path => s!"no entry {path}"
  | notADirectory path => s!"{path} is not a directory"
  | other message => message

/-- Where the files of a mod are kept. Reading may change the source. -/
class ModSource (σ : Type) where
  /-- Whether there is a file at a path. -/
  has : FileSystem → σ → String → Bool
  /-- The contents of the file at a path. -/
  read : FileSystem → σ → String → Except SourceFault Bytes × σ
  /-- The location of a path. -/
  locate : FileSystem → σ → String → Except SourceFault Location
  /-- The paths of all files in order. -/
  entries : FileSystem → σ → List String

end Crosswalk
