import Crosswalk.Source.Archive
import Crosswalk.Source.Directory

/-!
# Mods

A mod is opened as a directory where there is one, and as an archive otherwise.
-/

namespace Crosswalk

/-- A mod, unpacked or packed. -/
inductive Mod
  | directory (source : DirectorySource)
  | archive (source : ArchiveSource)

namespace Mod

/-- The mod at a path. -/
def ofPath (fs : FileSystem) (path : String) : Except SourceFault Mod :=
  if fs.isDirectory path then directory <$> DirectorySource.ofPath fs path
  else archive <$> ArchiveSource.ofPath fs path

instance : ModSource Mod where
  has fs m path :=
    match m with
    | directory s => ModSource.has fs s path
    | archive s => ModSource.has fs s path
  read fs m path :=
    match m with
    | directory s => (ModSource.read fs s path).map id directory
    | archive s => (ModSource.read fs s path).map id archive
  locate fs m path :=
    match m with
    | directory s => ModSource.locate fs s path
    | archive s => ModSource.locate fs s path
  entries fs m :=
    match m with
    | directory s => ModSource.entries fs s
    | archive s => ModSource.entries fs s

end Mod

end Crosswalk
