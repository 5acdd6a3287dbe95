import LsmTree.FileName
import LsmTree.Volume.Directory

/-!
# Paths

A path names a directory step by step: empty parts and single dots stay in place, two dots lead up, and
every other part leads down.

* **`Path.check`** refuses a path before any of it is looked up;
* **`Path.ending?`** finds the name that a path ends with;
* **`Directory.walk`** turns the parts of a path into the names that lead down to where it leads.
-/

namespace LsmTree

namespace Path

/-- How many octets a name may have. -/
def nameLimit : Nat := 255

/-- How many octets a path may have. -/
def limit : Nat := 4095

/-- The parts of a path between slashes. -/
def parts (path : String) : List String :=
  (path.toList.splitOn '/').map String.ofList

/-- Whether a path holds the octet zero, which ends every path. -/
def hasNul (path : String) : Bool := path.toList.contains (Char.ofNat 0)

/-- Refuses a path that cannot be looked up. -/
def check (path : String) : Except OsError Unit :=
  if hasNul path then .error .nulByte
  else if path = "" then .error .noEntry
  else if limit < path.utf8ByteSize then .error .nameTooLong
  else .ok ()

/-- Refuses a name that is too long. -/
def checkName (name : String) : Except OsError Unit :=
  if nameLimit < name.utf8ByteSize then .error .nameTooLong else .ok ()

/-- How many octets the name of a file in a directory may have before the path of the file is too long,
unless every name fits. A path that holds the octet zero is refused before its length is looked at. -/
def room? (dir : String) : Option Nat :=
  let room := limit - (FileName.join dir "").utf8ByteSize
  if hasNul dir ∨ nameLimit ≤ room then none else some room

/-- The end of a path: a name in a directory. -/
structure Ending where
  /-- What leads to the directory. -/
  parents : List String
  name : String
  /-- Whether slashes follow the name, so that it can only be that of a directory. -/
  closed : Bool
  deriving DecidableEq, Repr

/-- The name that a path ends with. A path that ends with dots, or has no names at all, leads to a
directory that already has a name elsewhere. -/
def ending? (path : String) : Option Ending :=
  let reversed := (parts path).reverse
  match reversed.dropWhile (· = "") with
  | [] => none
  | name :: rest =>
    if name = "." ∨ name = ".." then none
    else some ⟨rest.reverse, name, reversed.head? = some ""⟩

/-- A path and the paths of the directories that lead to where it leads, the longest first. In those,
the parts that stay in place are left out. -/
def ancestors (path : String) : List String :=
  let names := FileName.components path
  let shorter := (List.range (names.length - 1)).reverse.map fun n =>
    String.intercalate "/" (names.take (n + 1))
  if path = "" then [] else path :: shorter

end Path

namespace Directory

/-- The directory that a name holds. -/
def enter (dir : Directory) (name : String) : Except OsError Directory :=
  match dir.get? name with
  | none => .error .noEntry
  | some (.file _) => .error .notDirectory
  | some (.folder entries) => .ok ⟨entries⟩

/-- The directory at the end of a chain of names. -/
def folderAt (dir : Directory) (names : List String) : Except OsError Directory :=
  names.foldlM enter dir

/-- What the last of a chain of names holds; the chain without names leads to the directory. -/
def nodeAt (dir : Directory) (names : List String) : Except OsError Node :=
  match names.getLast? with
  | none => .ok (.folder dir.entries)
  | some name => do
    let parent ← dir.folderAt names.dropLast
    match parent.get? name with
    | none => .error .noEntry
    | some node => .ok node

/-- Changes the directory at the end of a chain of names. -/
def changeAt (change : Directory → Except OsError Directory) :
    (names : List String) → Directory → Except OsError Directory
  | [], dir => change dir
  | name :: rest, dir => do
    -- The way down is rebuilt on the way back up.
    let changed ← changeAt change rest (← dir.enter name)
    return dir.put name (.folder changed.entries)

/-- A way down through directories: the names passed, the last one first, each with the directory that it
was looked up in. -/
abbrev Trail := List (String × Directory)

/-- The directory that a way down from the root leads to. -/
def trailEnd (root : Directory) : Trail → Except OsError Directory
  | [] => .ok root
  | (name, dir) :: _ => dir.enter name

/-- The names that lead to where the parts of a path lead from the end of a way down. Whatever a part
says, it takes a directory to go on from. -/
def walk (root : Directory) : (trail : Trail) → (parts : List String) →
    Except OsError (List String)
  | trail, [] => .ok (trail.map Prod.fst).reverse
  | trail, part :: rest => do
    let here ← root.trailEnd trail
    if part = "" ∨ part = "." then root.walk trail rest
    else if part = ".." then root.walk trail.tail rest
    else do
      Path.checkName part
      root.walk ((part, here) :: trail) rest

end Directory

end LsmTree
