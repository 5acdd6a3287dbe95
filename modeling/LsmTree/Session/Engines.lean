import LsmTree.CommandLine
import LsmTree.Session.Answer

/-!
# Steps on managers and engines
-/

namespace LsmTree

/-- A step on the manager of a name. -/
inductive ManagerStep
  | load (config : Config)
  | allocate
  | next
  | directory
  | build (segment : String) (entries : List Entry)
  | commit (segments : List String)
  | drop

namespace ManagerStep

/-- Puts a manager under a name. -/
def keep (name dir : String) (manager : Manager) : StateM Session Unit :=
  modify fun session => { session with managers := session.managers.put name (dir, manager) }

/-- Gives the segments that a manager has opened names of their own, numbered from the newest on. -/
def nameAll (name dir : String) : (number : Nat) → List Segment → StateM Session Unit
  | _, [] => return
  | number, segment :: rest => do
    let handle ← Session.adopt dir segment
    Session.nameSegment (name ++ "." ++ Text.Decimal.text number) handle
    nameAll name dir (number + 1) rest

/-- Takes the step. -/
def run (name : String) : ManagerStep → SessionM Answer
  | load config => do
    modify fun session => { session with managers := session.managers.erase name }
    let session ← get
    let (result, volume) := Manager.load config session.volume
    set { session with volume }
    let (manager, segments) ← Session.ofExcept result
    keep name config.dataDir manager
    nameAll name config.dataDir 0 segments
    return .manager manager.next (segments.map Segment.info)
  | allocate => do
    let (dir, manager) ← Session.object Session.managers name
    let (generation, manager) := manager.allocate
    keep name dir manager
    return .number generation.toNat
  | next => do
    let (_, manager) ← Session.object Session.managers name
    return .number manager.next.toNat
  | directory => do
    let (dir, _) ← Session.object Session.managers name
    return .text dir
  | build segment entries => do
    let (dir, manager) ← Session.object Session.managers name
    Session.dropSegment segment
    let (generation, manager) := manager.allocate
    keep name dir manager
    match ← Session.tryOnDisk dir (Manager.build manager.sync generation entries) with
    | none => return .info none
    | some built =>
      Session.nameSegment segment (← Session.adopt dir built)
      return .info (some built.info)
  | commit segments => do
    let (dir, manager) ← Session.object Session.managers name
    let handles ← segments.mapM (Session.object Session.segments)
    Session.tryOnDisk dir (manager.commit (handles.map Handle.segment))
    return .done
  | drop => do
    let _ ← Session.object Session.managers name
    modify fun session => { session with managers := session.managers.erase name }
    return .done

end ManagerStep

/-- A step on the engine of a name. -/
inductive EngineStep
  | load (config : Config)
  | lookup (key : Bytes)
  | upsert (entries : List Entry)
  | range (bounds : KeyRange)
  | cursor (reader : String) (bounds : KeyRange)
  | flush
  | compact
  | close
  | stat
  /-- Closes the engine, whether or not that succeeds, and lets go of it. -/
  | drop
  /-- Lets go of the engine without closing it. -/
  | crash

namespace EngineStep

/-- Takes a step of maintenance with the engine of a name. -/
def maintain {α : Type} (name : String) (step : Maintenance.MaintenanceM α) : SessionM α := do
  let engine ← Session.object Session.engines name
  let session ← get
  let (result, engine, memory, volume) :=
    Maintenance.run step.run engine session.memory session.volume
  set { session with memory, volume, engines := session.engines.put name engine }
  Session.ofExcept result

/-- Closes the engine of a name, whether or not that succeeds, and lets go of it. -/
def discard (name : String) : StateM Session Unit := do
  let _ ← (maintain name Maintenance.close).run
  modify fun session => { session with engines := session.engines.erase name }

/-- What is told of an engine. -/
def report (memory : Memory) (engine : Engine) : EngineReport where
  config := engine.config
  generations := engine.generations
  tableCount := (memory.table engine.active).count
  tableSize := (memory.table engine.active).size
  next := engine.manager.next
  closed := engine.closed

/-- Takes the step. -/
def run (name : String) : EngineStep → SessionM Answer
  | load config => do
    discard name
    let session ← get
    let (result, volume) := Engine.load config session.memory session.volume
    set { session with volume }
    let (engine, memory) ← Session.ofExcept result
    modify fun session => { session with memory, engines := session.engines.put name engine }
    return .engine engine.generations engine.manager.next
  | lookup key => do
    let engine ← Session.object Session.engines name
    return .value (← Session.ofExcept (engine.get (← get).memory key))
  | upsert entries => do
    let engine ← Session.object Session.engines name
    let memory ← Session.ofExcept (engine.upsertAll (← get).memory entries)
    modify fun session => { session with memory }
    return .done
  | range bounds => do
    let engine ← Session.object Session.engines name
    return .entries (← Session.ofExcept (engine.entries (← get).memory bounds))
  | cursor reader bounds => do
    let engine ← Session.object Session.engines name
    let merge ← Session.ofExcept (engine.range (← get).memory bounds)
    modify fun session => { session with cursors := session.cursors.addMerge reader merge }
    return .number merge.liveSources
  | flush => do
    maintain name Maintenance.flush
    return .done
  | compact => do
    let session ← get
    let replaced ← maintain name (Maintenance.compact session.isHeld)
    modify fun session => { session with replaced := session.replaced ++ replaced }
    return .done
  | close => do
    maintain name Maintenance.close
    return .done
  | stat => do
    let engine ← Session.object Session.engines name
    return .report (report (← get).memory engine)
  | drop => do
    let _ ← Session.object Session.engines name
    discard name
    return .done
  | crash => do
    let _ ← Session.object Session.engines name
    modify fun session => { session with engines := session.engines.erase name }
    return .done

end EngineStep

end LsmTree
