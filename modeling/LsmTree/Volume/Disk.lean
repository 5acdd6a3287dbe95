import LsmTree.Volume.Snapshot

/-!
# Working on one directory

Everything that is stored lives in one directory. An operation on it sees the directory, may fail, and
leaves behind the directory as it became together with the mutations that made it so, in order. What
a crash can leave is what a first part of them makes.

* **`Disk.mutate`** performs a mutation and notes it, or fails and notes nothing;
* **`Disk.attempt`** performs a mutation and disregards a refusal;
* **`Disk.create`**, **`Disk.write`** open a file and write into it, **`Disk.read`** reads one;
* **`Disk.enter`** opens the directory itself, **`Disk.sync`** syncs it.
-/

namespace LsmTree

/-- One directory as an operation finds it. -/
structure Disk where
  /-- The directory, or why no name in it can be reached. -/
  folder : Except OsError Directory
  contents : Contents
  /-- How many octets a name may have, if the path of the directory leaves little room for it. -/
  room : Option Nat := none
  /-- Why the directory itself cannot be opened, if so. Names in it can be reached nevertheless: the empty
  path leads to files but to no directory, and a directory may be closed to readers. -/
  barred : Option OsError := none
  /-- Why the directory cannot be synced once it is open, if so. -/
  unsynced : Option OsError := none
  /-- The mutations performed so far. -/
  issued : List Mutation := []

/-- An operation on a directory that may fail. -/
abbrev DiskM := ExceptT Error (StateM Disk)

/-- The names that a mutation looks up. -/
def Mutation.names : Mutation → List String
  | .create name => [name]
  | .write .. => []
  | .rename source target => [source, target]
  | .unlink name => [name]

namespace Disk

/-- A directory before the first operation on it. -/
def ofSnapshot (snapshot : Snapshot) : Disk where
  folder := .ok snapshot.names
  contents := snapshot.contents

/-- Runs an operation on a directory. -/
def run {α : Type} (operation : DiskM α) (disk : Disk) : Except Error α × Disk :=
  StateT.run (ExceptT.run operation) disk

/-- Whether the path of a name is short enough. -/
def fits (disk : Disk) (name : String) : Bool :=
  disk.room.all fun room => name.utf8ByteSize ≤ room

/-- The directory, for looking up names in it. -/
def reach (disk : Disk) (names : List String) : Except OsError Directory :=
  if names.all disk.fits then disk.folder else .error .nameTooLong

/-- Changes the directory as a mutation does, and notes the mutation. -/
def perform {α : Type} (mutation : Mutation)
    (change : Snapshot → Except OsError (α × Snapshot)) : DiskM α := ExceptT.mk fun disk =>
  match disk.reach mutation.names with
  | .error cause => (.error (.io cause), disk)
  | .ok names =>
    match change ⟨names, disk.contents⟩ with
    | .error cause => (.error (.io cause), disk)
    | .ok (value, changed) =>
      (.ok value, { disk with
        folder := .ok changed.names
        contents := changed.contents
        issued := disk.issued ++ [mutation] })

/-- Performs a mutation of names. -/
def mutate (mutation : Mutation) : DiskM Unit :=
  perform mutation fun snapshot => (snapshot.apply mutation).map (Prod.mk ())

/-- Performs a mutation of names if it is not refused. -/
def attempt (mutation : Mutation) : StateM Disk Unit := fun disk =>
  ((), (run (mutate mutation) disk).2)

/-- Opens a file for writing, which makes it or empties it, and tells its number. -/
def create (name : String) : DiskM Nat :=
  perform (.create name) fun snapshot => snapshot.create name

/-- Writes into an open file. That never fails, even if the directory can no longer be reached. -/
def write (file offset : Nat) (bytes : Bytes) : StateM Disk Unit :=
  modify fun disk => { disk with
    contents := disk.contents.write file offset bytes
    issued := disk.issued ++ [.write file offset bytes] }

/-- The length of an open file. -/
def fileLength (file : Nat) : StateM Disk Nat := do
  return ((← get).contents.get file).length

/-- The contents of a regular file. -/
def read (name : String) : DiskM Bytes := ExceptT.mk fun disk =>
  match disk.reach [name] with
  | .error cause => (.error (.io cause), disk)
  | .ok dir =>
    match dir.get? name with
    | none => (.error (.io .noEntry), disk)
    | some (.folder _) => (.error (.io .isDirectory), disk)
    | some (.file number) => (.ok (disk.contents.get number), disk)

/-- Opens the directory itself. -/
def enter : DiskM Directory := ExceptT.mk fun disk =>
  match disk.folder with
  | .error cause => (.error (.io cause), disk)
  | .ok dir =>
    match disk.barred with
    | some cause => (.error (.io cause), disk)
    | none => (.ok dir, disk)

/-- Why a directory that can be reached cannot be synced. -/
def syncFault? (disk : Disk) : Option OsError := disk.barred <|> disk.unsynced

/-- Syncs the directory, which has to be opened for it. -/
def sync : DiskM Unit := do
  let _ ← enter
  match (← get).unsynced with
  | some cause => throw (.io cause)
  | none => return

/-- Opens the directory itself and lists the regular files in it that can be reached. -/
def fileNames : DiskM (List String) := do
  let dir ← enter
  return dir.fileNames.filter (← get).fits

/-- Runs clean-up if an operation fails, and then fails the same way. -/
def orElse {α : Type} (operation : DiskM α) (cleanUp : StateM Disk Unit) : DiskM α :=
  tryCatch operation fun error => do
    cleanUp
    throw error

end Disk

end LsmTree
