import LsmTree.Bytes.Checksum
import LsmTree.KeyRange
import LsmTree.Manifest
import LsmTree.Reader
import LsmTree.Segment.Index
import LsmTree.Volume.Disk

/-!
# Segments

An opened segment is the data and the checked slots of its index; entries are cut out of the data by
position when they are asked for. Lookups search the positions by halving.

* **`Segment.entryAt`** and **`Segment.entries`** — the entry of a position, and all of them;
* **`Segment.find?`** looks up a key, **`Segment.span`** finds the positions of a range;
* **`Segment.ofFiles`** checks the contents of the two files, **`Segment.load`** reads them first.
-/

namespace LsmTree

/-- An opened segment. -/
structure Segment where
  generation : UInt64
  data : Bytes
  /-- The slots of the index: the start of the data, then the ends of each key and each value. -/
  slots : List UInt64
  /-- The checksum of the data, if it was recorded or computed. -/
  dataCrc : Option UInt32
  deriving DecidableEq

namespace Segment

/-! ## Entries by position -/

/-- The count of entries, tombstones included. -/
def count (segment : Segment) : Nat := segment.slots.length / 2

/-- A slot of the index. -/
def slot (segment : Segment) (i : Nat) : UInt64 := segment.slots.getD i 0

/-- Where the key at a position starts and ends. -/
def keyBounds (segment : Segment) (i : Nat) : Nat × Nat :=
  ((segment.slot (2 * i)).toNat, Layout.offset (segment.slot (2 * i + 1)))

/-- The key at a position. -/
def keyAt (segment : Segment) (i : Nat) : Bytes :=
  Layout.slice segment.data (segment.keyBounds i).1 (segment.keyBounds i).2

/-- The value at a position. -/
def valueAt (segment : Segment) (i : Nat) : Bytes :=
  Layout.slice segment.data (segment.keyBounds i).2 (segment.slot (2 * i + 2)).toNat

/-- The entry at a position. -/
def entryAt (segment : Segment) (i : Nat) : Entry :=
  if Layout.isFlagged (segment.slot (2 * i + 1)) then .tombstone (segment.keyAt i)
  else .put (segment.keyAt i) (segment.valueAt i)

/-- All entries, in the order of their positions. -/
def entries (segment : Segment) : List Entry :=
  (List.range segment.count).map segment.entryAt

/-! ## Lookups -/

/-- The end of a search: a position with the key, or the position where it would have to be. -/
inductive Probe
  | hit (position : Nat)
  | miss (position : Nat)
  deriving DecidableEq, Repr

/-- The position that a search ended at. -/
def Probe.position : Probe → Nat
  | hit position => position
  | miss position => position

/-- Searches the positions from `low` up to but not including `high` by halving; the first position
seen with the key ends the search. -/
def searchBetween (segment : Segment) (key : Bytes) (low high : Nat) : Probe :=
  if low < high then
    let middle := low + (high - low) / 2
    match Bytes.order (segment.keyAt middle) key with
    | .lt => segment.searchBetween key (middle + 1) high
    | .gt => segment.searchBetween key low middle
    | .eq => .hit middle
  else .miss low
termination_by high - low
decreasing_by
  · omega
  · omega

/-- Searches all positions for a key. -/
def search (segment : Segment) (key : Bytes) : Probe :=
  segment.searchBetween key 0 segment.count

/-- The entry of a key, a tombstone included. -/
def find? (segment : Segment) (key : Bytes) : Option Entry :=
  match segment.search key with
  | .hit position => some (segment.entryAt position)
  | .miss _ => none

/-- The positions of a range: the first one, and the one after the last. -/
def span (segment : Segment) (range : KeyRange) : Nat × Nat :=
  let start := match range.start with
    | none => 0
    | some key => (segment.search key).position
  let stop := match range.stop with
    | none => segment.count
    | some key => (segment.search key).position
  -- Inverted bounds span no positions.
  (start, max stop start)

/-! ## Cursors -/

/-- The positions still to be read. -/
structure Cursor where
  position : Nat
  stop : Nat
  deriving DecidableEq, Repr

/-- The cursor before the first entry of a range. -/
def Cursor.ofRange (segment : Segment) (range : KeyRange) : Cursor :=
  ⟨(segment.span range).1, (segment.span range).2⟩

/-- The count of entries still to be read. -/
def Cursor.remaining (cursor : Cursor) : Nat := cursor.stop - cursor.position

/-- Reads a segment position by position, tombstones included. -/
def cursorReader (segment : Segment) : Reader Cursor where
  next cursor :=
    if cursor.position < cursor.stop then
      (some (segment.entryAt cursor.position), { cursor with position := cursor.position + 1 })
    else (none, cursor)
  remaining := Cursor.remaining
  remaining_next := by
    intro cursor entry h
    by_cases hlt : cursor.position < cursor.stop
    · simp only [hlt, if_true, Cursor.remaining]
      omega
    · simp [hlt] at h

/-- The entries of a range. -/
def rangeEntries (segment : Segment) (range : KeyRange) : List Entry :=
  (segment.cursorReader.drain (Cursor.ofRange segment range)).1

/-! ## Opening -/

/-- The count and the lengths, as a message tells them. -/
def sizes (segment : Segment) : SegmentSizes :=
  ⟨segment.count, segment.data.length, 8 * segment.slots.length⟩

/-- What the manifest records of the segment. -/
def info (segment : Segment) : SegmentMeta where
  generation := segment.generation
  entryCount := .ofNat segment.count
  dataLen := .ofNat segment.data.length
  indexLen := .ofNat (8 * segment.slots.length)
  dataCrc := segment.dataCrc

/-- Checks generation, lengths and count against what was recorded: they are compared as they are
recorded, in eight octets each. -/
def checkRecorded (segment : Segment) (recorded : SegmentMeta) : Except SegmentFault Unit :=
  let expected : SegmentSizes :=
    ⟨recorded.entryCount.toNat, recorded.dataLen.toNat, recorded.indexLen.toNat⟩
  if recorded ≠ { segment.info with dataCrc := recorded.dataCrc } then
    .error (.sizes segment.sizes expected)
  else .ok ()

/-- The first position whose key does not come after the one before it. -/
def disorder? (segment : Segment) : Option Nat :=
  (List.range (segment.count - 1)).findSome? fun i =>
    if segment.keyAt i < segment.keyAt (i + 1) then none else some (i + 1)

/-- Checks the data against the recorded checksum, if there is one, and then the order of the keys. The
segment keeps the checksum computed. -/
def verify (segment : Segment) : Except SegmentFault Segment :=
  let actual := segment.data.crc32
  match segment.dataCrc.filter fun recorded => recorded ≠ actual with
  | some recorded => .error (.checksum actual recorded)
  | none =>
    match segment.disorder? with
    | some position => .error (.keyOrder position)
    | none => .ok { segment with dataCrc := some actual }

/-- The segment whose files hold `data` and `index`, or the first fault found. `recorded` is what the
manifest says of the segment; with `verified` the checksum and the key order are checked as well. -/
def ofFiles (generation : UInt64) (recorded : Option SegmentMeta) (verified : Bool)
    (data index : Bytes) : Except SegmentFault Segment := do
  let slots ← Layout.checkIndex index data.length
  let segment : Segment := ⟨generation, data, slots, recorded.bind SegmentMeta.dataCrc⟩
  match recorded with
  | some recorded => segment.checkRecorded recorded
  | none => pure ()
  if verified then segment.verify else pure segment

/-- The contents of one of the files. A directory in its place can be opened but not mapped. -/
def readFile (name : String) : DiskM Bytes :=
  tryCatch (Disk.read name) fun
    | .io .isDirectory => throw (.io .noDevice)
    | error => throw error

/-- Opens the segment of a generation. -/
def load (generation : UInt64) (recorded : Option SegmentMeta) (verified : Bool) :
    DiskM Segment := do
  let data ← readFile (FileName.segment .data generation)
  let index ← readFile (FileName.segment .index generation)
  match ofFiles generation recorded verified data index with
  | .ok segment => return segment
  | .error fault => throw (.corrupt generation fault)

/-- Takes both files of a generation away, as far as they are there. -/
def remove (generation : UInt64) : StateM Disk Unit := do
  Disk.attempt (.unlink (FileName.segment .data generation))
  Disk.attempt (.unlink (FileName.segment .index generation))

end Segment

end LsmTree
