import Crosswalk.Source.Basic

/-!
# Unpacked mods

The files of an unpacked mod are those below a directory. A path never leads out of it.
-/

namespace Crosswalk

/-- A mod in a directory. -/
structure DirectorySource where
  root : Place
  deriving DecidableEq

namespace DirectorySource

/-- The mod in the directory at a path. -/
def ofPath (fs : FileSystem) (path : String) : Except SourceFault DirectorySource :=
  match fs.find path with
  | .error fault => .error (.file fault)
  | .ok (place, .directory) => .ok ⟨place⟩
  | .ok (place, .file _) => .error (.notADirectory (FileSystem.absolutePath place))

/-- The path in the file system of a path in the mod. There is none where it goes up. -/
def resolve (s : DirectorySource) (path : String) : Option String :=
  let segments := Path.segments path
  if segments.contains ".." then none
  else some ((segments.filter Path.isName).foldl Path.join (FileSystem.absolutePath s.root))

instance : ModSource DirectorySource where
  has fs s path := (s.resolve path).any fs.isFile
  read fs s path :=
    match s.resolve path with
    | none => (.error (.noEntry path), s)
    | some resolved => ((fs.read resolved).mapError .file, s)
  locate fs s path :=
    match s.resolve path with
    | none => .error (.noEntry path)
    | some resolved => .ok (.ofPath (FileSystem.absolutePath fs.workingDirectory) resolved)
  entries fs s := (fs.filesBelow s.root).map fun file => FileSystem.relativePath file.1

end DirectorySource

end Crosswalk
