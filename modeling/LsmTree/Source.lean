import LsmTree.Memtable.Cursor
import LsmTree.Merge
import LsmTree.Segment

/-!
# Sources that share what they read

Several holders may read one table, or one opened segment, at the same time. Tables are kept in a
memory under numbers, so that a cursor sees what an engine writes later. An opened segment never
changes and is held by value, with a serial number that tells one opening from another: the files of a
segment that was replaced are taken away only when no holder with its serial is left.

* **`Leaf`** is a cursor over a list, a table or a segment; **`Source n`** may also merge sources of
  less depth;
* **`Leaf.reader`**, **`Source.reader`** read them, given the memory;
* **`Source.handles`** lists the opened segments that a source holds on to.
-/

namespace LsmTree

/-- An opened segment in the hands of one or several holders. -/
structure Handle where
  /-- Distinguishes this opening from every other one. -/
  serial : Nat
  /-- The directory that holds the files. -/
  dir : String
  segment : Segment

/-- What engines and cursors share. -/
structure Memory where
  /-- The tables by number. -/
  tables : List Memtable
  /-- How many openings have been given a serial number. -/
  openings : Nat

namespace Memory

/-- The memory at the start. -/
def empty : Memory := ⟨[], 0⟩

/-- A table by its number. -/
def table (memory : Memory) (id : Nat) : Memtable := memory.tables.getD id .empty

/-- Adds an empty table and returns its number. -/
def newTable (memory : Memory) : Nat × Memory :=
  (memory.tables.length, { memory with tables := memory.tables ++ [.empty] })

/-- Writes an entry into a table. -/
def insert (memory : Memory) (id : Nat) (entry : Entry) : Memory :=
  { memory with tables := memory.tables.modify id fun table => table.insert entry }

/-- Gives an opened segment a serial number. -/
def adopt (memory : Memory) (dir : String) (segment : Segment) : Handle × Memory :=
  (⟨memory.openings, dir, segment⟩, { memory with openings := memory.openings + 1 })

/-- Gives each of several opened segments a serial number. -/
def adoptAll (memory : Memory) (dir : String) : List Segment → List Handle × Memory
  | [] => ([], memory)
  | segment :: rest =>
    let (handle, memory) := memory.adopt dir segment
    let (handles, memory) := memory.adoptAll dir rest
    (handle :: handles, memory)

theorem table_insert (memory : Memory) (id other : Nat) (entry : Entry) :
    (memory.insert id entry).table other =
      if other = id ∧ id < memory.tables.length then (memory.table id).insert entry
      else memory.table other := by
  by_cases h : other = id
  · subst h
    by_cases hlt : other < memory.tables.length
    · simp [insert, table, hlt, List.getD]
    · simp [insert, table, hlt, List.getD]
  · simp only [insert, table, List.getD, List.getElem?_modify]
    simp [Ne.symm h, h]

end Memory

/-- A cursor over entries that does not merge. -/
inductive Leaf
  | list (entries : List Entry)
  | table (id : Nat) (cursor : Memtable.Cursor)
  | segment (handle : Handle) (cursor : Segment.Cursor)

namespace Leaf

/-- The next entry and the cursor after it. -/
def next (memory : Memory) : Leaf → Option Entry × Leaf
  | list entries => ((Reader.list.next entries).1, .list (Reader.list.next entries).2)
  | table id cursor =>
    let step := (memory.table id).cursorReader.next cursor
    (step.1, .table id step.2)
  | segment handle cursor =>
    let step := handle.segment.cursorReader.next cursor
    (step.1, .segment handle step.2)

/-- A bound on the entries still to come while nothing is written. -/
def remaining (memory : Memory) : Leaf → Nat
  | list entries => Reader.list.remaining entries
  | table id cursor => (memory.table id).cursorReader.remaining cursor
  | segment handle cursor => handle.segment.cursorReader.remaining cursor

/-- Reads leaves, given the tables they refer to. -/
def reader (memory : Memory) : Reader Leaf where
  next := next memory
  remaining := remaining memory
  remaining_next := by
    intro source entry h
    cases source with
    | list entries => exact Reader.list.remaining_next h
    | table id cursor => exact (memory.table id).cursorReader.remaining_next h
    | segment handle cursor => exact handle.segment.cursorReader.remaining_next h

/-- The opened segments that a leaf holds on to, whether or not it has entries left. -/
def handles : Leaf → List Handle
  | segment handle _ => [handle]
  | _ => []

/-- A cursor over a range of a table. -/
def ofTable (id : Nat) (range : KeyRange) : Leaf :=
  .table id (.ofRange range)

/-- A cursor over a range of an opened segment. -/
def ofHandle (handle : Handle) (range : KeyRange) : Leaf :=
  .segment handle (.ofRange handle.segment range)

end Leaf

/-- A leaf, or a merge of sources of less depth. -/
def Source : (depth : Nat) → Type
  | 0 => Leaf
  | depth + 1 => Source depth ⊕ Merge (Source depth)

namespace Source

/-- Reads sources of any depth, given the tables they refer to. -/
def reader (memory : Memory) : (depth : Nat) → Reader (Source depth)
  | 0 => Leaf.reader memory
  | depth + 1 => (reader memory depth).sum (Merge.reader (reader memory depth))

/-- A leaf as a source. -/
def ofLeaf : (depth : Nat) → Leaf → Source depth
  | 0, leaf => leaf
  | depth + 1, leaf => .inl (ofLeaf depth leaf)

/-- A merge of leaves as a source. -/
def ofMerge : (depth : Nat) → Merge Leaf → Source (depth + 1)
  | 0, merge => .inr merge
  | depth + 1, merge => .inl (ofMerge depth merge)

/-- The merge that a source is, by the count of its live sources. -/
def liveSources? : (depth : Nat) → Source depth → Option Nat
  | 0, _ => none
  | depth + 1, .inl source => liveSources? depth source
  | _ + 1, .inr merge => some merge.liveSources

/-- The leaf that a source is. -/
def leaf? : (depth : Nat) → Source depth → Option Leaf
  | 0, leaf => some leaf
  | depth + 1, .inl source => leaf? depth source
  | _ + 1, .inr _ => none

/-- The opened segments that a source holds on to. A merge has let go of every source that had no
entry when it was asked for one. -/
def handles : (depth : Nat) → Source depth → List Handle
  | 0, leaf => Leaf.handles leaf
  | depth + 1, .inl source => handles depth source
  | depth + 1, .inr merge => merge.heads.flatMap fun head => handles depth head.source

end Source

end LsmTree
