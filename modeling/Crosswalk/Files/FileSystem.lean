import Std.Data.HashMap
import Crosswalk.Bytes
import Crosswalk.Files.Fault
import Crosswalk.Files.Path

/-!
# File systems

A file system holds files and directories by place, which is the list of the names that lead there
from the root, and has a working directory. A path is looked up segment by segment, and goes on only
where there is a directory.

The operations answer as an operating system does. `createAll` makes a directory with everything
above it that is missing, and `save` a file with its directory.
-/

namespace Crosswalk

/-- The names that lead from the root to a file or a directory. -/
abbrev Place := List String

/-- What can be at a place. -/
inductive FileNode
  | directory
  | file (contents : Bytes)
  deriving DecidableEq, Inhabited

/-- Files and directories by place, and the directory that relative paths start from. -/
structure FileSystem where
  nodes : Std.HashMap Place FileNode
  workingDirectory : Place

namespace FileSystem

/-- Nothing but the root. -/
def empty : FileSystem := ⟨∅, []⟩

instance : Inhabited FileSystem := ⟨empty⟩

/-! ## Looking up -/

/-- What is at a place. The root is always a directory. -/
def node? (fs : FileSystem) (place : Place) : Option FileNode :=
  if place = [] then some .directory else fs.nodes[place]?

/-- No name has more bytes than this. -/
def nameLimit : Nat := 255

/-- Every path has fewer bytes than this. -/
def pathLimit : Nat := 4096

/-- The place that segments lead to from a place. Only the last one may lead to nothing. -/
def walk (fs : FileSystem) (here : Place) : List String → Except FileFault Place
  | [] => .ok here
  | segment :: rest =>
    match fs.node? here with
    | none => .error .notFound
    | some (.file _) => .error .notADirectory
    | some .directory =>
      if segment = "." then fs.walk here rest
      else if segment = ".." then fs.walk here.dropLast rest
      else if nameLimit < segment.utf8ByteSize then .error .nameTooLong
      else fs.walk (here ++ [segment]) rest

/-- The segments of a path that lead somewhere. A slash at the end asks for a directory. -/
def steps (path : String) : List String :=
  (Path.segments path).filter (· != "") ++
    (if path.toList.getLast? == some '/' then ["."] else [])

/-- The place of a path, where there may be nothing. -/
def place (fs : FileSystem) (path : String) : Except FileFault Place :=
  if path.toList.contains '\x00' then .error .holdsNull
  else if path.isEmpty then .error .notFound
  else if pathLimit ≤ path.utf8ByteSize then .error .nameTooLong
  else fs.walk (if Path.isAbsolute path then [] else fs.workingDirectory) (steps path)

/-- The place of a path where there is something, and what is there. -/
def find (fs : FileSystem) (path : String) : Except FileFault (Place × FileNode) := do
  let place ← fs.place path
  match fs.node? place with
  | some node => pure (place, node)
  | none => throw .notFound

/-- Whether there is a file at a path. -/
def isFile (fs : FileSystem) (path : String) : Bool :=
  match fs.find path with
  | .ok (_, .file _) => true
  | _ => false

/-- Whether there is a directory at a path. -/
def isDirectory (fs : FileSystem) (path : String) : Bool :=
  match fs.find path with
  | .ok (_, .directory) => true
  | _ => false

/-- The contents of the file at a path. -/
def read (fs : FileSystem) (path : String) : Except FileFault Bytes := do
  match ← fs.find path with
  | (_, .file contents) => pure contents
  | (_, .directory) => throw .isADirectory

/-- Names as a relative path. -/
def relativePath (names : Place) : String :=
  "/".intercalate names

/-- A place as an absolute path. -/
def absolutePath (place : Place) : String :=
  "/" ++ relativePath place

/-- Every file below a place, by the names that lead there from the place, in the order of their
relative paths. -/
def filesBelow (fs : FileSystem) (root : Place) : List (Place × Bytes) :=
  let files := fs.nodes.toList.filterMap fun (place, node) =>
    match node, root.isPrefixOf? place with
    | .file contents, some names => some (names, contents)
    | _, _ => none
  files.mergeSort fun a b => relativePath a.1 ≤ relativePath b.1

/-! ## Changing -/

/-- A file system where something is put at a place. -/
def insert (fs : FileSystem) (place : Place) (node : FileNode) : FileSystem :=
  { fs with nodes := fs.nodes.insert place node }

/-- A file system with the given contents in the file at a path, which is made if there is none. -/
def write (fs : FileSystem) (path : String) (contents : Bytes) : Except FileFault FileSystem := do
  let place ← fs.place path
  match fs.node? place with
  | some .directory => throw .isADirectory
  | _ => pure (fs.insert place (.file contents))

/-- A file system with a new directory at a path. -/
def create (fs : FileSystem) (path : String) : Except FileFault FileSystem := do
  let place ← fs.place path
  match fs.node? place with
  | some _ => throw .alreadyExists
  | none => pure (fs.insert place .directory)

/-- Makes a directory, and is content with one that is there already. -/
def ensure (fs : FileSystem) (path : String) : Except FileFault FileSystem :=
  match fs.create path with
  | .ok made => .ok made
  | .error e => if fs.isDirectory path then .ok fs else .error e

/-- Makes the first directory of a list, and where a directory is missing for it the ones behind it
first. What has been made stays, also where this fails in the end. -/
def createAlong (fs : FileSystem) : List String → FileSystem × Except FileFault Unit
  | [] => (fs, .error .notFound)
  | path :: above =>
    if path.isEmpty then (fs, .ok ())
    else
      match fs.ensure path with
      | .ok made => (made, .ok ())
      | .error .notFound =>
        match fs.createAlong above with
        | (fs, .error e) => (fs, .error e)
        | (fs, .ok ()) =>
          match fs.ensure path with
          | .ok made => (made, .ok ())
          | .error e => (fs, .error e)
      | .error e => (fs, .error e)

/-- Makes a directory and everything above it that is missing. -/
def createAll (fs : FileSystem) (path : String) : FileSystem × Except FileFault Unit :=
  fs.createAlong (path :: Path.above path)

/-- Puts contents into the file at a path, in a directory that is made if there is none. -/
def save (fs : FileSystem) (path : String) (contents : Bytes) :
    FileSystem × Except FileFault Unit :=
  let (fs, made) :=
    match Path.parent? path with
    | some directory => fs.createAll directory
    | none => (fs, .ok ())
  match made with
  | .error e => (fs, .error e)
  | .ok () =>
    match fs.write path contents with
    | .ok fs => (fs, .ok ())
    | .error e => (fs, .error e)

/-- A file system without the file at a path, and whether there was one. -/
def erase (fs : FileSystem) (path : String) : FileSystem × Bool :=
  match fs.find path with
  | .ok (place, .file _) => ({ fs with nodes := fs.nodes.erase place }, true)
  | _ => (fs, false)

/-! ## Comparing -/

/-- The files below a place that were not there before, or had other contents. -/
def changes (before after : FileSystem) (root : Place) : List (Place × Bytes) :=
  (after.filesBelow root).filter fun (names, contents) =>
    before.node? (root ++ names) != some (.file contents)

/-! ## Small facts -/

/-- The root is a directory of every file system. -/
@[simp] theorem node?_root (fs : FileSystem) : fs.node? [] = some .directory := rfl

/-- What is put at a place is there, and nothing else changes. -/
theorem node?_insert (fs : FileSystem) (place other : Place) (node : FileNode) (h : place ≠ []) :
    (fs.insert place node).node? other = if place = other then some node else fs.node? other := by
  unfold node? insert
  by_cases hother : other = []
  · subst hother
    simp [h]
  · simp [hother, Std.HashMap.getElem?_insert]

end FileSystem

end Crosswalk
