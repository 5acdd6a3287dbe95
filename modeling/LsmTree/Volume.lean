import LsmTree.Volume.Disk
import LsmTree.Volume.Path

/-!
# Volumes

A volume is a tree of directories with a working directory at its root, and the files in them.

* **`Volume.node`** tells what a path leads to, **`Volume.place`** where the name that it ends with is or
  would be;
* **`Volume.makeAll`** makes a directory and those that lead to it;
* **`Volume.onDisk`** runs an operation on the directory at a path.
-/

namespace LsmTree

/-- A tree of directories with files. -/
structure Volume where
  root : Directory
  contents : Contents

namespace Volume

/-- The volume that holds nothing. -/
def empty : Volume := ⟨.empty, .empty⟩

/-- The names that lead from the root to where a path leads. -/
def locate (volume : Volume) (path : String) : Except OsError (List String) := do
  Path.check path
  volume.root.walk [] (Path.parts path)

/-- What a path leads to. -/
def node (volume : Volume) (path : String) : Except OsError Node := do
  volume.root.nodeAt (← volume.locate path)

/-- The directory that a path leads to. -/
def folder (volume : Volume) (path : String) : Except OsError Directory := do
  volume.root.folderAt (← volume.locate path)

/-- The name that a path ends with, and the names that lead from the root to its directory. -/
def place (volume : Volume) (path : String) : Except OsError Path.Ending := do
  Path.check path
  match Path.ending? path with
  | none => do
    let _ ← volume.locate path
    throw .alreadyExists
  | some ending => do
    let parents ← volume.root.walk [] ending.parents
    let _ ← volume.root.folderAt parents
    Path.checkName ending.name
    return { ending with parents }

/-- Changes the directory at the end of a chain of names. -/
def changeAt (volume : Volume) (names : List String)
    (change : Directory → Except OsError Directory) : Except OsError Volume := do
  return { volume with root := ← volume.root.changeAt change names }

/-! ## Making directories -/

/-- Makes the directory at a path. -/
def makeFolder (volume : Volume) (path : String) : Except OsError Volume := do
  let place ← volume.place path
  volume.changeAt place.parents fun dir => dir.makeFolder place.name

/-- Makes the directory at a path unless it is there. -/
def ensureFolder (volume : Volume) (path : String) : Except OsError Unit × Volume :=
  match volume.makeFolder path with
  | .ok volume => (.ok (), volume)
  | .error cause =>
    match volume.folder path with
    | .ok _ => (.ok (), volume)
    | .error _ => (.error cause, volume)

/-- Makes the directory at the first of the given paths. If it has nothing to be in, those at the
others, which lead to it, are made before. Directories made stay, even if a later one cannot be made. -/
def makeChain (volume : Volume) : (paths : List String) → Except OsError Unit × Volume
  | [] => (.ok (), volume)
  | path :: outer =>
    match volume.makeFolder path with
    | .error .noEntry =>
      match volume.makeChain outer with
      | (.ok _, volume) => volume.ensureFolder path
      | failed => failed
    | _ => volume.ensureFolder path

/-- Makes the directory at a path, and those that lead to it. -/
def makeAll (volume : Volume) (path : String) : Except OsError Unit × Volume :=
  volume.makeChain (Path.ancestors path)

/-! ## Working in a directory -/

/-- The directory at a path, ready for an operation. Through the empty path the files of the root can
be reached. -/
def disk (volume : Volume) (path : String) : Disk where
  folder := if path = "" then .ok volume.root else volume.folder path
  contents := volume.contents
  room := Path.room? path
  barred := if path = "" then some .noEntry else none

/-- The volume after an operation on the directory at a path. What was written into files is kept even
if the directory cannot be reached. -/
def update (volume : Volume) (path : String) (disk : Disk) : Volume :=
  let names := if path = "" then .ok [] else volume.locate path
  match names.bind (volume.root.changeAt fun _ => disk.folder) with
  | .ok root => ⟨root, disk.contents⟩
  | .error _ => ⟨volume.root, disk.contents⟩

/-- Runs an operation on the directory at a path. -/
def onDisk {α : Type} (volume : Volume) (path : String) (operation : StateM Disk α) : α × Volume :=
  let (result, disk) := operation.run (volume.disk path)
  (result, volume.update path disk)

end Volume

end LsmTree
