import LsmTree.Volume.Contents
import LsmTree.Volume.Directory

/-!
# A directory with the contents of its files, and what changes them

A mutation is one step that a program asks of the file system: it is either performed or refused, and
then it changes nothing.

* **`Snapshot.file?`** is the view: the octets of the file of a name;
* **`Snapshot.apply`** says what each mutation does and when it is refused;
* **`Snapshot.replay`** performs a sequence of mutations, as a crash would leave it part of the way.
-/

namespace LsmTree

/-- One change that a program asks of a directory. -/
inductive Mutation
  /-- Makes an empty file, or empties the one that is there. -/
  | create (name : String)
  /-- Writes into an open file, by its number, from an offset on. -/
  | write (file offset : Nat) (bytes : Bytes)
  /-- Gives a file another name, in place of what had that name. -/
  | rename (source target : String)
  /-- Takes the name of a file away. -/
  | unlink (name : String)

/-- A directory together with the octets of files. -/
structure Snapshot where
  names : Directory
  contents : Contents

namespace Snapshot

/-- The directory that holds nothing. -/
def empty : Snapshot := ⟨.empty, .empty⟩

/-- The octets of the regular file of a name. -/
def file? (snapshot : Snapshot) (name : String) : Option Bytes :=
  (snapshot.names.file? name).map snapshot.contents.get

/-- Makes an empty file, or empties the one that is there, and tells its number. -/
def create (snapshot : Snapshot) (name : String) : Except OsError (Nat × Snapshot) :=
  match snapshot.names.get? name with
  | some (.folder _) => .error .isDirectory
  | some (.file number) =>
    .ok (number, { snapshot with contents := snapshot.contents.set number [] })
  | none =>
    let (number, contents) := snapshot.contents.add []
    .ok (number, ⟨snapshot.names.put name (.file number), contents⟩)

/-- The directory after a mutation, or why it is refused. -/
def apply (snapshot : Snapshot) : Mutation → Except OsError Snapshot
  | .create name => (snapshot.create name).map Prod.snd
  | .write file offset bytes =>
    .ok { snapshot with contents := snapshot.contents.write file offset bytes }
  | .rename source target =>
    (snapshot.names.rename source target).map fun names => { snapshot with names }
  | .unlink name => (snapshot.names.unlink name).map fun names => { snapshot with names }

/-- The directory after a sequence of mutations; those that are refused change nothing. -/
def replay (snapshot : Snapshot) (mutations : List Mutation) : Snapshot :=
  mutations.foldl (fun snapshot mutation =>
    match snapshot.apply mutation with
    | .ok changed => changed
    | .error _ => snapshot) snapshot

end Snapshot

end LsmTree
