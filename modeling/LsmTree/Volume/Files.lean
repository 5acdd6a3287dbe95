import LsmTree.Volume

/-!
# Files of a volume by their paths

Reading, writing and moving whole files, from outside the store. Writing to a path makes a new file in
place of the old one; who holds the old file keeps it.
-/

namespace LsmTree

/-- What a listing tells of a name. -/
inductive Item
  | folder
  /-- A file whose name marks it as temporary. -/
  | temporary
  | file (length : Nat)
  deriving DecidableEq, Repr

namespace Volume

/-- The contents of the file at a path. -/
def readFile (volume : Volume) (path : String) : Except OsError Bytes := do
  match ← volume.node path with
  | .file number => return volume.contents.get number
  | .folder _ => throw .isDirectory

/-- Makes a file at a path, in place of the file that is there. -/
def writeFile (volume : Volume) (path : String) (bytes : Bytes) : Except OsError Volume := do
  let place ← volume.place path
  if place.closed then
    throw .isDirectory
  let (number, contents) := volume.contents.add bytes
  { volume with contents }.changeAt place.parents fun dir =>
    match dir.get? place.name with
    | some (.folder _) => .error .isDirectory
    | _ => .ok (dir.put place.name (.file number))

/-- Takes the file at a path away. -/
def removeFile (volume : Volume) (path : String) : Except OsError Volume := do
  let place ← volume.place path
  if place.closed then
    throw .notDirectory
  volume.changeAt place.parents fun dir => dir.unlink place.name

/-- Takes the empty directory at a path away. -/
def removeFolder (volume : Volume) (path : String) : Except OsError Volume := do
  let place ← volume.place path
  volume.changeAt place.parents fun dir => dir.removeFolder place.name

/-- Moves what a path leads to. A directory cannot be moved into itself. -/
def move (volume : Volume) (source target : String) : Except OsError Volume := do
  let source ← volume.place source
  let target ← volume.place target
  let chain (place : Path.Ending) := place.parents ++ [place.name]
  let node ← volume.root.nodeAt (chain source)
  match node with
  | .file _ => if source.closed ∨ target.closed then throw .notDirectory
  | .folder _ => if (chain source).isPrefixOf target.parents then throw .invalid
  if source.parents = target.parents then
    volume.changeAt source.parents fun dir => dir.rename source.name target.name
  else
    match node.refusedOver? (volume.root.nodeAt (chain target)).toOption with
    | some cause => throw cause
    | none =>
      let without ← volume.changeAt source.parents fun dir => .ok (dir.erase source.name)
      without.changeAt target.parents fun dir => .ok (dir.put target.name node)

/-- What a listing tells of a name. -/
def item (contents : Contents) (name : String) : Node → Item
  | .folder _ => .folder
  | .file number =>
    if name.endsWith ".tmp" then .temporary else .file (contents.get number).length

/-- The names in the directory at a path. -/
def listing (volume : Volume) (path : String) : Except OsError (List (String × Item)) := do
  match ← volume.node path with
  | .file _ => throw .notDirectory
  | .folder entries => return entries.map fun (name, node) => (name, item volume.contents name node)

end Volume

end LsmTree
