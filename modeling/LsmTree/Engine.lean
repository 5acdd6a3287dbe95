import LsmTree.Manager
import LsmTree.Source

/-!
# The engine

An engine keeps recent writes in an active table, tables that wait to be written out in a queue, and
older data in committed segments. A key is looked up in that order, newest first, and the first version
found decides; a tombstone means that there is no value.

* **`Engine.find?`**, **`Engine.get`** — lookup of one key;
* **`Engine.range`** — a merge of all layers;
* **`Engine.upsert`** — a write into the active table.
-/

namespace LsmTree

/-- A store of keys and values over a data directory. -/
structure Engine where
  config : Config
  manager : Manager
  closed : Bool
  /-- The table that takes the writes, by its number in the memory. -/
  active : Nat
  /-- The tables that wait to be written out, oldest first. -/
  queue : List Nat
  /-- The committed segments, newest first. -/
  segments : List Handle

namespace Engine

/-- The segments as they are committed, newest first. -/
def live (engine : Engine) : List Segment := engine.segments.map Handle.segment

/-- The tables, newest first. -/
def tables (engine : Engine) : List Nat := engine.active :: engine.queue.reverse

/-- The newest version of a key, a tombstone included. -/
def find? (memory : Memory) (engine : Engine) (key : Bytes) : Option Entry :=
  (engine.tables.findSome? fun id => (memory.table id).get? key).or
    (engine.live.findSome? fun segment => segment.find? key)

/-- The value of a key. -/
def get (memory : Memory) (engine : Engine) (key : Bytes) : Except Error (Option Bytes) :=
  if engine.closed then .error .closed
  else .ok ((engine.find? memory key).bind Entry.value)

/-- A cursor over each layer, newest first. -/
def layers (engine : Engine) (range : KeyRange) : List Leaf :=
  engine.tables.map (fun id => Leaf.ofTable id range) ++
    engine.segments.map (fun handle => Leaf.ofHandle handle range)

/-- The live entries of a range, to be read one at a time. What is written ahead of the reading may be
seen. -/
def range (memory : Memory) (engine : Engine) (range : KeyRange) : Except Error (Merge Leaf) :=
  if engine.closed then .error .closed
  else .ok (Merge.ofSources (Leaf.reader memory) (engine.layers range))

/-- The live entries of a range, read at once. -/
def entries (memory : Memory) (engine : Engine) (range : KeyRange) : Except Error (List Entry) := do
  let merge ← engine.range memory range
  return ((Merge.reader (Leaf.reader memory)).drain merge).1

/-- Writes an entry over the older versions of its key. -/
def upsert (memory : Memory) (engine : Engine) (entry : Entry) : Except Error Memory :=
  if engine.closed then .error .closed
  else .ok (memory.insert engine.active entry)

/-- Writes entries one after the other. -/
def upsertAll (memory : Memory) (engine : Engine) : List Entry → Except Error Memory
  | [] => .ok memory
  | entry :: rest => do
    let memory ← engine.upsert memory entry
    engine.upsertAll memory rest

/-- The generations of the segments, oldest first. -/
def generations (engine : Engine) : List UInt64 :=
  (engine.live.map Segment.generation).reverse

/-- An engine over the segments that a manager has found, with nothing written yet. -/
def ofSegments (memory : Memory) (config : Config) (manager : Manager) (segments : List Segment) :
    Engine × Memory :=
  let (handles, memory) := memory.adoptAll config.dataDir segments
  let (active, memory) := memory.newTable
  ({ config, manager, closed := false, active, queue := [], segments := handles }, memory)

/-- Opens the data directory of a configuration. -/
def load (config : Config) (memory : Memory) (volume : Volume) :
    Except Error (Engine × Memory) × Volume :=
  match Manager.load config volume with
  | (.error error, volume) => (.error error, volume)
  | (.ok (manager, segments), volume) => (.ok (ofSegments memory config manager segments), volume)

end Engine

end LsmTree
