import Crosswalk.Archive.Basic
import Crosswalk.Source.Basic

/-!
# Packed mods

The files of a packed mod are the entries of an archive. Its directory is read once, but the
contents of an entry are read from the file as it is by then. The location of an entry holds that of
the archive, which is escaped once more for it.
-/

namespace Crosswalk

/-- A mod in an archive. -/
structure ArchiveSource where
  /-- Where the archive lies. -/
  place : Place
  archive : Archive

namespace ArchiveSource

/-- The mod in the archive at a path. -/
def ofPath (fs : FileSystem) (path : String) : Except SourceFault ArchiveSource :=
  match fs.find path with
  | .error fault => .error (.file fault)
  | .ok (_, .directory) => .error (.file .isADirectory)
  | .ok (place, .file contents) =>
    match Archive.ofBytes contents.toArray with
    | .error fault => .error (.archive fault)
    | .ok archive => .ok ⟨place, archive⟩

/-- The bytes of the archive as it is now. -/
def contents (s : ArchiveSource) (fs : FileSystem) : Array UInt8 :=
  match fs.node? s.place with
  | some (.file contents) => contents.toArray
  | _ => #[]

/-- The location of an entry. -/
def locate (s : ArchiveSource) (path : String) : Location :=
  let archive := Location.ofPath "" (FileSystem.absolutePath s.place)
  ⟨"jar:" ++ Location.escape archive.uri ++ "!/" ++ Location.escape path⟩

/-- A list in order, without what is there twice. -/
def distinct (names : List String) : List String :=
  (names.mergeSort (· ≤ ·)).foldr (fun name rest =>
    if rest.head? == some name then rest else name :: rest) []

instance : ModSource ArchiveSource where
  has fs s path :=
    (s.archive.entry? path).any fun e => e.canOpen (s.contents fs) && !e.isDirectory
  read fs s path :=
    match s.archive.entry? path with
    | none => (.error (.noEntry path), s)
    | some e => ((e.unpack (s.contents fs)).mapError .archive, s)
  locate _ s path := .ok (s.locate path)
  entries _ s :=
    distinct ((s.archive.entries.map (·.name)).filter fun name => name.toList.getLast? != some '/')

end ArchiveSource

end Crosswalk
