import LsmTree.Engine

/-!
# Writing out, merging and closing

Maintenance moves data from the tables to segments. A table is first put at the end of the queue; a
flush writes the queue out, oldest first, and commits after each table, so that what is committed is
always a first part of the writes. A compaction writes all layers as one segment without tombstones.

* **`Maintenance.flush`**, **`Maintenance.compact`**, **`Maintenance.close`** are the steps;
* **`Maintenance.run`** takes one in a volume.

A step that fails leaves the manifest as it was, and the tables it did not get to stay in the queue.
-/

namespace LsmTree.Maintenance

/-- What maintenance works on: the engine, the tables and serial numbers it shares with others, and its
directory. -/
structure Workspace where
  engine : Engine
  memory : Memory
  disk : Disk

/-- A step of maintenance. -/
abbrev MaintenanceM := ExceptT Error (StateM Workspace)

/-- Works on the directory. -/
def onDisk {α : Type} (operation : DiskM α) : MaintenanceM α := ExceptT.mk fun workspace =>
  let (result, disk) := Disk.run operation workspace.disk
  (result, { workspace with disk })

/-- Changes the engine. -/
def change (f : Engine → Engine) : StateM Workspace Unit :=
  modify fun workspace => { workspace with engine := f workspace.engine }

/-- Adds an empty table to the memory. -/
def newTable : StateM Workspace Nat :=
  modifyGet fun workspace =>
    let (id, memory) := workspace.memory.newTable
    (id, { workspace with memory })

/-- Gives an opened segment a serial number. -/
def adopt (segment : Segment) : StateM Workspace Handle :=
  modifyGet fun workspace =>
    let (handle, memory) := workspace.memory.adopt workspace.engine.config.dataDir segment
    (handle, { workspace with memory })

/-- Hands out a generation; it stays handed out whatever comes of it. -/
def allocate : StateM Workspace UInt64 :=
  modifyGet fun workspace =>
    let (generation, manager) := workspace.engine.manager.allocate
    (generation, { workspace with engine := { workspace.engine with manager } })

/-- Puts the active table at the end of the queue, unless nothing was written into it. -/
def freeze : StateM Workspace Unit := do
  let { engine, memory, .. } ← get
  unless (memory.table engine.active).isEmpty do
    let active ← newTable
    change fun engine => { engine with active, queue := engine.queue ++ [engine.active] }

/-- Writes ascending entries as a segment of a new generation. -/
def build (entries : List Entry) : MaintenanceM (Option Segment) := do
  let sync := (← get).engine.manager.sync
  let generation ← allocate
  onDisk (Manager.build sync generation entries)

/-- Commits a list of segments, newest first. If that fails, the segment just built for it is taken
away again. -/
def commit (segments : List Segment) (built : Option Segment) : MaintenanceM Unit := do
  let manager := (← get).engine.manager
  onDisk (Disk.orElse (manager.commit segments) (built.forM fun segment =>
    Segment.remove segment.generation))

/-- Writes the given tables out, oldest first, each as a segment that is committed at once. -/
def flushTables : List Nat → MaintenanceM Unit
  | [] => pure ()
  | table :: rest => do
    let { engine, memory, .. } ← get
    match ← build (memory.table table).entries with
    | none => change fun engine => { engine with queue := rest }
    | some segment =>
      commit (segment :: engine.live) (some segment)
      let handle ← adopt segment
      -- Only a committed table leaves the queue, so a failure in between loses nothing.
      change fun engine => { engine with queue := rest, segments := handle :: engine.segments }
    flushTables rest

/-- Writes out everything written so far. -/
def flushAll : MaintenanceM Unit := do
  freeze
  flushTables (← get).engine.queue

/-- Fails if the engine is closed. -/
def requireOpen : MaintenanceM Unit := do
  if (← get).engine.closed then throw .closed

/-- Writes out everything written so far. -/
def flush : MaintenanceM Unit := do
  requireOpen
  flushAll

/-- All live entries of the layers below the active table. -/
def compacted (memory : Memory) (engine : Engine) : List Entry :=
  let leaves := (engine.layers .all).tail
  ((Merge.reader (Leaf.reader memory)).drain (Merge.ofSources (Leaf.reader memory) leaves)).1

/-- Takes the files of replaced segments away, newest first, except where a segment is still in use;
returns those. -/
def retire (inUse : Handle → Bool) (replaced : List Handle) : StateM Disk (List Handle) := do
  (replaced.filter fun handle => ¬ inUse handle).forM fun handle =>
    Segment.remove handle.segment.generation
  return replaced.filter inUse

/-- Writes all layers as one segment without tombstones, or as none if no live entry is left. Returns
the replaced segments that are still in use: their files are left for the last user to take away. -/
def compact (inUse : Handle → Bool) : MaintenanceM (List Handle) := do
  requireOpen
  freeze
  let { engine, memory, .. } ← get
  if engine.queue.isEmpty && engine.segments.isEmpty then
    return []
  -- The freeze has emptied the active table, so the layers below it are all there is.
  let built ← build (compacted memory engine)
  commit built.toList built
  let handles ← built.toList.mapM fun segment => adopt segment
  change fun engine => { engine with queue := [], segments := handles }
  onDisk (retire inUse engine.segments)

/-- Writes out everything written so far and lets go of all data. Closing a closed engine does nothing;
if the writing fails the engine stays open. -/
def close : MaintenanceM Unit := do
  if (← get).engine.closed then
    return
  flushAll
  let active ← newTable
  change fun engine => { engine with closed := true, active, queue := [], segments := [] }

/-- Runs a step of maintenance in a volume. -/
def run {α : Type} (step : StateM Workspace α) (engine : Engine) (memory : Memory)
    (volume : Volume) : α × Engine × Memory × Volume :=
  let onDisk : StateM Disk (α × Engine × Memory) := fun disk =>
    let (result, workspace) := step.run ⟨engine, memory, disk⟩
    ((result, workspace.engine, workspace.memory), workspace.disk)
  let ((result, engine, memory), volume) := volume.onDisk engine.config.dataDir onDisk
  (result, engine, memory, volume)

end LsmTree.Maintenance
