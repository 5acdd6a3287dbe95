import LsmTree.Proofs.MaintenanceSteps
import LsmTree.Session.Engines

/-!
# A directory and the engine that uses it

A session reduced to one data directory, used by one engine at a time, with the cursors that were made on
it. Events take place in any order: steps of the engine, the loss of the engine without a closing, and
directories that are put in the way of files or taken away again.

* **`World.step`** — what an event answers and what it makes of the world;
* **`World.run`** — a sequence of events, with their answers;
* **`World.Reached`** — the worlds that events lead to from an empty directory, each with a **`Ledger`** of
  what was written since the directory was last opened.
-/

namespace LsmTree

/-- A data directory with the engine that uses it, if there is one, and the cursors made on it. -/
structure World where
  dir : Snapshot
  memory : Memory
  engine : Option Engine
  cursors : Named (Merge Leaf)
  /-- Opened segments whose files are to be taken away once no cursor holds them. -/
  replaced : List Handle

/-- What may happen in a world. -/
inductive Event
  /-- Opens the directory; an engine that still uses it is let go first. -/
  | load (config : Config)
  | lookup (key : Bytes)
  | range (bounds : KeyRange)
  | cursor (name : String) (bounds : KeyRange)
  /-- Asks a cursor for its next entry. -/
  | next (name : String)
  | release (name : String)
  | upsert (entry : Entry)
  | flush
  | compact
  | close
  /-- Closes the engine, whether or not that succeeds, and lets go of it. -/
  | drop
  /-- Lets go of the engine without closing it. -/
  | crash
  /-- Puts a directory under a name that is free. -/
  | block (name : String)
  /-- Takes an empty directory away. -/
  | unblock (name : String)

/-- The events that only read. -/
def Event.isReading : Event → Bool
  | .lookup _ | .range _ | .cursor _ _ | .next _ | .release _ => true
  | _ => false

namespace World

/-- A world in which a directory was not opened yet. -/
def ofDir (dir : Snapshot) : World where
  dir
  memory := .empty
  engine := none
  cursors := []
  replaced := []

/-- The world at the start. -/
def empty : World := ofDir .empty

/-- Whether a cursor holds an opened segment. -/
def isHeld (world : World) (handle : Handle) : Bool :=
  (world.cursors.flatMap fun (_, merge) => merge.heads.flatMap fun head => head.source.handles).any
    fun held => held.serial = handle.serial

/-- Takes away the files of the replaced segments that no cursor holds. -/
def releaseFiles (world : World) : World :=
  let (held, unheld) := world.replaced.partition world.isHeld
  let disk := ((Manager.removeAll (unheld.map fun handle => handle.segment.generation)).run
    (.ofSnapshot world.dir)).2
  { world with dir := disk.snapshot, replaced := held }

/-- What maintenance works on. -/
def workspace (world : World) (engine : Engine) : Maintenance.Workspace :=
  ⟨engine, world.memory, .ofSnapshot world.dir⟩

/-- The world that maintenance leaves. -/
def after (world : World) (workspace : Maintenance.Workspace) : World :=
  { world with
    dir := workspace.disk.snapshot, memory := workspace.memory, engine := some workspace.engine }

/-- Takes a step of maintenance with the engine. -/
def maintain {α : Type} (world : World) (step : Maintenance.MaintenanceM α) :
    Except StepFault α × World :=
  match world.engine with
  | none => (.error .noObject, world)
  | some engine =>
    let (result, workspace) := step.run.run (world.workspace engine)
    (result.mapError .store, world.after workspace)

/-- Closes the engine, whether or not that succeeds, and lets go of it. -/
def discard (world : World) : World :=
  { (world.maintain Maintenance.close).2 with engine := none }

/-- Opens the directory. -/
def load (world : World) (config : Config) : Except StepFault Answer × World :=
  match (Manager.recover config).run.run (.ofSnapshot world.dir) with
  | (.error error, disk) => (.error (.store error), { world with dir := disk.snapshot })
  | (.ok (manager, segments), disk) =>
    let (engine, memory) := Engine.ofSegments world.memory config manager segments
    (.ok (.engine engine.generations engine.manager.next),
      { world with dir := disk.snapshot, memory, engine := some engine })

/-- Asks the engine. -/
def ask {α : Type} (world : World) (question : Engine → Except Error α) : Except StepFault α :=
  match world.engine with
  | none => .error .noObject
  | some engine => (question engine).mapError .store

/-- Changes the directory from outside, unless that is refused. -/
def change (world : World) (changed : Except OsError Directory) : Except StepFault Answer × World :=
  match changed with
  | .error cause => (.error (.files cause), world)
  | .ok names => (.ok .done, { world with dir := { world.dir with names } })

/-- What an event answers and makes of the world, before files are taken away. -/
def act (world : World) : Event → Except StepFault Answer × World
  | .load config => world.discard.load config
  | .lookup key => (world.ask fun engine => .value <$> engine.get world.memory key, world)
  | .range bounds => (world.ask fun engine => .entries <$> engine.entries world.memory bounds, world)
  | .cursor name bounds =>
    match world.ask fun engine => engine.range world.memory bounds with
    | .error fault => (.error fault, world)
    | .ok merge =>
      (.ok (.number merge.liveSources), { world with cursors := world.cursors.put name merge })
  | .next name =>
    match world.cursors.get? name with
    | none => (.error .noObject, world)
    | some merge =>
      let (entry, merge) := (Merge.reader (Leaf.reader world.memory)).next merge
      (.ok (.lookup entry), { world with cursors := world.cursors.put name merge })
  | .release name => (.ok .done, { world with cursors := world.cursors.erase name })
  | .upsert entry =>
    match world.ask fun engine => engine.upsert world.memory entry with
    | .error fault => (.error fault, world)
    | .ok memory => (.ok .done, { world with memory })
  | .flush =>
    let (result, world) := world.maintain Maintenance.flush
    (result.map fun _ => .done, world)
  | .compact =>
    let (result, world) := world.maintain (Maintenance.compact world.isHeld)
    (result.map fun _ => .done,
      { world with replaced := world.replaced ++ result.toOption.getD [] })
  | .close =>
    let (result, world) := world.maintain Maintenance.close
    (result.map fun _ => .done, world)
  | .drop => (.ok .done, world.discard)
  | .crash => (.ok .done, { world with engine := none })
  | .block name => world.change (world.dir.names.makeFolder name)
  | .unblock name => world.change (world.dir.names.removeFolder name)

/-- Takes an event, and then takes away the files that nobody holds any more. -/
def step (world : World) (event : Event) : Except StepFault Answer × World :=
  let (answer, world) := world.act event
  (answer, world.releaseFiles)

/-- Takes one event after another, and tells each with its answer. -/
def run (world : World) : List Event → List (Event × Except StepFault Answer) × World
  | [] => ([], world)
  | event :: rest =>
    let (answer, world) := world.step event
    let (answers, world) := world.run rest
    ((event, answer) :: answers, world)

/-- What the engine answers for each key. -/
def shown (world : World) : Content := fun key =>
  match world.ask fun engine => engine.get world.memory key with
  | .ok value => value
  | .error _ => none

/-- How many generations a step of maintenance hands out. -/
def spent {α : Type} (world : World) (step : Maintenance.MaintenanceM α) : Nat :=
  match world.engine with
  | none => 0
  | some engine =>
    ((step.run.run (world.workspace engine)).2.engine.manager.next - engine.manager.next).toNat

/-- How many generations an event hands out. -/
def handsOut (world : World) : Event → Nat
  | .flush => world.spent Maintenance.flush
  | .compact => world.spent (Maintenance.compact world.isHeld)
  | .close | .drop | .load _ => world.spent Maintenance.close
  | _ => 0

end World

/-- What was written since a directory was last opened. -/
structure Ledger where
  /-- The content at that opening. -/
  base : Content
  /-- The writes accepted since, in their order. -/
  writes : List Entry
  /-- How many of them came before the last flush, compaction or closing that succeeded. -/
  durable : Nat
  /-- How many generations were ever handed out. -/
  handedOut : Nat

namespace Ledger

/-- The ledger of a directory that was never opened. -/
def empty : Ledger := ⟨.empty, [], 0, 0⟩

/-- Notes an event of a world. -/
def note (ledger : Ledger) (world : World) (event : Event) : Ledger :=
  let handedOut := ledger.handedOut + world.handsOut event
  let (answer, after) := world.step event
  match event, answer with
  | .load _, .ok _ => ⟨after.shown, [], 0, handedOut⟩
  | .upsert entry, .ok _ => { ledger with writes := ledger.writes ++ [entry], handedOut }
  | .flush, .ok _ | .compact, .ok _ | .close, .ok _ =>
    { ledger with durable := ledger.writes.length, handedOut }
  | _, _ => { ledger with handedOut }

/-- Notes one event after another. -/
def noteAll (ledger : Ledger) (world : World) : List Event → Ledger
  | [] => ledger
  | event :: rest => (ledger.note world event).noteAll (world.step event).2 rest

end Ledger

/-- The worlds that events lead to from an empty directory, whatever files there are elsewhere, with their
ledgers. -/
inductive World.Reached : World → Ledger → Prop
  | start {contents : Contents} : Reached (.ofDir ⟨.empty, contents⟩) .empty
  | step {world : World} {ledger : Ledger} (h : Reached world ledger) (event : Event) :
    Reached (world.step event).2 (ledger.note world event)

theorem World.run_append (world : World) (events more : List Event) :
    (world.run (events ++ more)).2 = ((world.run events).2.run more).2 := by
  induction events generalizing world with
  | nil => rfl
  | cons event rest ih => exact ih _

theorem Ledger.noteAll_append (ledger : Ledger) (world : World) (events more : List Event) :
    ledger.noteAll world (events ++ more) =
      (ledger.noteAll world events).noteAll (world.run events).2 more := by
  induction events generalizing ledger world with
  | nil => rfl
  | cons event rest ih => exact ih _ _

theorem World.Reached.run {world : World} {ledger : Ledger} (h : Reached world ledger)
    (events : List Event) : Reached (world.run events).2 (ledger.noteAll world events) := by
  induction events generalizing world ledger with
  | nil => exact h
  | cons event rest ih => exact ih (h.step event)

end LsmTree
