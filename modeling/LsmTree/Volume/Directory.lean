import LsmTree.Error

/-!
# Directories

A directory gives each name a file, known by its number, or another directory.

* **`Directory.get?`** is the view of a directory; `put` and `erase` are described through it by
  **`get?_put`** and **`get?_erase`**;
* **`Directory.rename`**, **`Directory.unlink`** say when a name may be moved or taken away.
-/

namespace LsmTree

/-- What a name in a directory holds. -/
inductive Node
  | file (number : Nat)
  | folder (entries : List (String × Node))

/-- Names with what they hold. Of two entries with one name, the first counts. -/
structure Directory where
  entries : List (String × Node)

/-- Of things with names, those of the other names are found as before once one name is taken out. -/
theorem find?_without {α : Type} (entries : List (String × α)) (name other : String) :
    (entries.filter fun entry => entry.1 ≠ name).find? (fun entry => entry.1 = other) =
      if other = name then none else entries.find? fun entry => entry.1 = other := by
  rw [List.find?_filter]
  split
  · next h =>
    subst h
    rw [List.find?_eq_none]
    simp
  · next h =>
    congr 1
    funext entry
    by_cases he : entry.1 = other
    · simp [he, h]
    · simp [he]

namespace Directory

/-- The directory that holds nothing. -/
def empty : Directory := ⟨[]⟩

/-- What a name holds. -/
def get? (dir : Directory) (name : String) : Option Node :=
  (dir.entries.find? fun entry => entry.1 = name).map Prod.snd

/-- Takes a name away. -/
def erase (dir : Directory) (name : String) : Directory :=
  ⟨dir.entries.filter fun entry => entry.1 ≠ name⟩

/-- Lets a name hold something, in place of what it held. -/
def put (dir : Directory) (name : String) (node : Node) : Directory :=
  ⟨(name, node) :: (dir.erase name).entries⟩

/-- The regular file of a name. -/
def file? (dir : Directory) (name : String) : Option Nat :=
  match dir.get? name with
  | some (.file number) => some number
  | _ => none

/-- The names of the regular files. -/
def fileNames (dir : Directory) : List String :=
  (dir.entries.map Prod.fst).filter fun name => (dir.file? name).isSome

theorem get?_erase (dir : Directory) (name other : String) :
    (dir.erase name).get? other = if other = name then none else dir.get? other := by
  rw [get?, erase, find?_without]
  split <;> rfl

theorem get?_put (dir : Directory) (name other : String) (node : Node) :
    (dir.put name node).get? other = if other = name then some node else dir.get? other := by
  by_cases h : other = name
  · subst h
    simp [get?, put]
  · have := get?_erase dir name other
    rw [if_neg h] at this ⊢
    rw [← this]
    simp [get?, put, Ne.symm h]

theorem erase_of_free {dir : Directory} {name : String} (h : dir.get? name = none) :
    dir.erase name = dir := by
  refine congrArg mk (List.filter_eq_self.2 fun entry hmem => ?_)
  simpa using List.find?_eq_none.1 (Option.map_eq_none_iff.1 h) entry hmem

theorem erase_put_self (dir : Directory) (name : String) (node : Node) :
    (dir.put name node).erase name = dir.erase name := by
  simp [put, erase]

theorem erase_put_of_ne (dir : Directory) {name other : String} (h : other ≠ name) (node : Node) :
    (dir.put other node).erase name = (dir.erase name).put other node := by
  simp [put, erase, h, Bool.and_comm]

theorem entries_put_of_free {dir : Directory} {name : String} (h : dir.get? name = none) (node : Node) :
    (dir.put name node).entries = (name, node) :: dir.entries := by
  rw [put, erase_of_free h]

end Directory

/-- Why a node may not take the place of what a name holds: a file takes the place of files only, a
directory that of empty directories only. -/
def Node.refusedOver? : (node : Node) → (target : Option Node) → Option OsError
  | .file _, some (.folder _) => some .isDirectory
  | .folder _, some (.file _) => some .notDirectory
  | .folder _, some (.folder (_ :: _)) => some .notEmpty
  | _, _ => none

namespace Directory

/-- Gives what a name holds another name, in place of what had that name. -/
def rename (dir : Directory) (source target : String) : Except OsError Directory :=
  match dir.get? source with
  | none => .error .noEntry
  | some node =>
    if source = target then .ok dir
    else
      match node.refusedOver? (dir.get? target) with
      | some cause => .error cause
      | none => .ok ((dir.erase source).put target node)

/-- Takes the name of a regular file away. -/
def unlink (dir : Directory) (name : String) : Except OsError Directory :=
  match dir.get? name with
  | none => .error .noEntry
  | some (.folder _) => .error .isDirectory
  | some (.file _) => .ok (dir.erase name)

/-- Takes the name of an empty directory away. -/
def removeFolder (dir : Directory) (name : String) : Except OsError Directory :=
  match dir.get? name with
  | none => .error .noEntry
  | some (.file _) => .error .notDirectory
  | some (.folder []) => .ok (dir.erase name)
  | some (.folder (_ :: _)) => .error .notEmpty

/-- Makes an empty directory of a name that is free. -/
def makeFolder (dir : Directory) (name : String) : Except OsError Directory :=
  match dir.get? name with
  | none => .ok (dir.put name (.folder []))
  | some _ => .error .alreadyExists

end Directory

end LsmTree
