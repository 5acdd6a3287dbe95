import LsmTree.Maintenance

/-!
# Sessions

A session works step by step on objects that have names: tables, cursors, builders, opened segments,
managers and engines, each kind with names of its own, over one volume. A step that fails leaves the
session usable.

The files of a segment that was replaced are taken away when the last holder of the opened segment
lets go of it. Holders are the names of opened segments and the cursors; an engine lets go of a segment
before it marks it as replaced.

* **`Session.release`** takes away the files that nobody holds any more.
-/

namespace LsmTree

/-- Values under names. -/
abbrev Named (α : Type) := List (String × α)

namespace Named

variable {α : Type}

/-- The value of a name. -/
def get? (named : Named α) (name : String) : Option α :=
  (named.find? fun entry => entry.1 = name).map Prod.snd

/-- Takes a name away. -/
def erase (named : Named α) (name : String) : Named α :=
  named.filter fun entry => entry.1 ≠ name

/-- Gives a name a value, in place of the one it had. -/
def put (named : Named α) (name : String) (value : α) : Named α :=
  (name, value) :: named.erase name

theorem get?_erase (named : Named α) (name other : String) :
    (named.erase name).get? other = if other = name then none else named.get? other := by
  rw [get?, erase, find?_without]
  split <;> rfl

theorem get?_put (named : Named α) (name other : String) (value : α) :
    (named.put name value).get? other = if other = name then some value else named.get? other := by
  by_cases h : other = name
  · subst h
    simp [get?, put]
  · have := get?_erase named name other
    rw [if_neg h] at this ⊢
    rw [← this]
    simp [get?, put, Ne.symm h]

end Named

/-- The cursors of a session. All are kept at one depth, which grows with each merge of cursors. -/
structure Cursors where
  depth : Nat
  named : Named (Source depth)

namespace Cursors

/-- No cursors. -/
def empty : Cursors := ⟨0, []⟩

/-- Adds a cursor that does not merge. -/
def addLeaf (cursors : Cursors) (name : String) (leaf : Leaf) : Cursors :=
  ⟨cursors.depth, Named.put cursors.named name (.ofLeaf cursors.depth leaf)⟩

/-- The cursors as sources of one more depth. -/
def deepen (cursors : Cursors) : Named (Source (cursors.depth + 1)) :=
  cursors.named.map fun (name, source) => (name, .inl source)

/-- Adds a merge of cursors that do not merge. -/
def addMerge (cursors : Cursors) (name : String) (merge : Merge Leaf) : Cursors :=
  ⟨cursors.depth + 1, Named.put cursors.deepen name (.ofMerge cursors.depth merge)⟩

/-- Takes cursors out by their names, one after the other. If one is missing, those before it are out
all the same. -/
def takeAll {depth : Nat} (named : Named (Source depth)) :
    List String → Option (List (Source depth)) × Named (Source depth)
  | [] => (some [], named)
  | name :: rest =>
    match Named.get? named name with
    | none => (none, named)
    | some source =>
      let (sources, named) := takeAll (Named.erase named name) rest
      (sources.map (source :: ·), named)

/-- The opened segments that the cursors hold on to. -/
def handles (cursors : Cursors) : List Handle :=
  cursors.named.flatMap fun (_, source) => source.handles cursors.depth

end Cursors

/-- The objects of a session, and the volume they work on. -/
structure Session where
  volume : Volume
  memory : Memory
  tables : Named Nat
  cursors : Cursors
  /-- Builders, each with its directory. -/
  builders : Named (String × Builder)
  segments : Named Handle
  /-- Managers, each with its directory. -/
  managers : Named (String × Manager)
  engines : Named Engine
  /-- Opened segments whose files are to be taken away once nobody holds them. -/
  replaced : List Handle

/-- Why a step of a session has no other answer. -/
inductive StepFault
  /-- The store reports an error. -/
  | store (error : Error)
  /-- A name that the step needs has no object. -/
  | noObject
  /-- A change to the files of the volume is refused. -/
  | files (cause : OsError)

/-- A step of a session. -/
abbrev SessionM := ExceptT StepFault (StateM Session)

namespace Session

/-- A session without objects on an empty volume. -/
def empty : Session where
  volume := .empty
  memory := .empty
  tables := []
  cursors := .empty
  builders := []
  segments := []
  managers := []
  engines := []
  replaced := []

/-- Whether a name or a cursor holds an opened segment. -/
def isHeld (session : Session) (handle : Handle) : Bool :=
  (session.segments.map Prod.snd ++ session.cursors.handles).any fun held =>
    held.serial = handle.serial

/-- Whether an opened segment is marked as replaced. -/
def isReplaced (session : Session) (handle : Handle) : Bool :=
  session.replaced.any fun other => other.serial = handle.serial

/-- Takes away the files of the replaced segments that nobody holds. -/
def releaseFiles (session : Session) : Session :=
  let (held, unheld) := session.replaced.partition session.isHeld
  let volume := unheld.foldl (fun volume handle =>
    (volume.onDisk handle.dir (Segment.remove handle.segment.generation)).2) session.volume
  { session with volume, replaced := held }

/-- Takes away the files that nobody holds any more. -/
def release : StateM Session Unit := modify releaseFiles

/-- The object that a name stands for. -/
def object {α : Type} (kind : Session → Named α) (name : String) : SessionM α := do
  match Named.get? (kind (← get)) name with
  | some value => return value
  | none => throw .noObject

/-- Fails with an error of the store. -/
def ofExcept {α : Type} : Except Error α → SessionM α
  | .ok value => return value
  | .error error => throw (.store error)

/-- Works on the directory at a path, in a way that does not fail. -/
def onDisk {α : Type} (dir : String) (operation : StateM Disk α) : StateM Session α :=
  modifyGet fun session =>
    let (result, volume) := session.volume.onDisk dir operation
    (result, { session with volume })

/-- Works on the directory at a path. -/
def tryOnDisk {α : Type} (dir : String) (operation : DiskM α) : SessionM α := do
  let result ← (onDisk dir operation.run : StateM Session (Except Error α))
  ofExcept result

/-- Gives an opened segment a serial number. -/
def adopt (dir : String) (segment : Segment) : StateM Session Handle :=
  modifyGet fun session =>
    let (handle, memory) := session.memory.adopt dir segment
    (handle, { session with memory })

/-- Lets go of the opened segment under a name. -/
def dropSegment (name : String) : StateM Session Unit := do
  modify fun session => { session with segments := session.segments.erase name }
  release

/-- Gives a name to an opened segment. -/
def nameSegment (name : String) (handle : Handle) : StateM Session Unit :=
  modify fun session => { session with segments := session.segments.put name handle }

end Session

end LsmTree
