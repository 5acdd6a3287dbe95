import LsmTree.Bytes.Checksum
import LsmTree.Manifest
import LsmTree.Segment.Layout
import LsmTree.Volume.Disk

/-!
# Building a segment

A builder takes entries in strictly ascending key order and writes the two files of a segment under
temporary names. Finishing it renames both into place; a builder that is given up, or that cannot rename
both, takes its files away again. Once both are renamed they stay, even if the builder fails then because
the directory cannot be synced. The files stay open while the builder is at work: names are looked up only
to create the files, to rename them and to take them away.

* **`Builder.start`**, **`Builder.add`**, **`Builder.finish`** — a segment from first to last;
* **`Builder.discard`** gives a builder up.
-/

namespace LsmTree

/-- An open file being written, with the octets that have not been passed on yet. -/
structure Stream where
  /-- The number of the file: its name may change or be taken away meanwhile. -/
  file : Nat
  /-- Where in the file the octets passed on next go. -/
  offset : Nat
  pending : Bytes

namespace Stream

/-- How many octets a stream keeps back before it passes them on. -/
def capacity : Nat := 8192

/-- The stream of a file that was just opened. -/
def ofFile (file : Nat) : Stream := ⟨file, 0, []⟩

/-- Passes octets on. -/
def pass (stream : Stream) (bytes : Bytes) : StateM Disk Stream := do
  Disk.write stream.file stream.offset bytes
  return { stream with offset := stream.offset + bytes.length }

/-- Passes on what was kept back. -/
def flush (stream : Stream) : StateM Disk Stream := do
  if stream.pending = [] then
    return stream
  let stream ← stream.pass stream.pending
  return { stream with pending := [] }

/-- Writes octets: they are kept back as long as there is room for them, and go past the others if they
would fill a whole stream by themselves. -/
def write (stream : Stream) (bytes : Bytes) : StateM Disk Stream := do
  if stream.pending.length + bytes.length ≤ capacity then
    if bytes.length < capacity then
      return { stream with pending := stream.pending ++ bytes }
    else
      -- Nothing is kept back here, since the octets fill the stream by themselves.
      stream.pass bytes
  else
    let stream ← stream.flush
    if bytes.length < capacity then
      return { stream with pending := bytes }
    else
      stream.pass bytes

end Stream

/-- A segment being written. -/
structure Builder where
  generation : UInt64
  /-- Whether the directory is opened and synced once the files are in place. -/
  sync : Bool
  data : Stream
  index : Stream
  /-- The octets of data written so far. -/
  offset : Nat
  count : Nat
  /-- The key of the last entry. -/
  last : Option Bytes
  checksum : Checksum

namespace Builder

/-- The temporary name of one half of a generation. -/
def temporary (half : Half) (generation : UInt64) : String :=
  FileName.temporary (FileName.segment half generation)

/-- Creates both temporary files and writes the first slot of the index. -/
def start (generation : UInt64) (sync : Bool) : DiskM Builder := do
  let data ← Disk.create (temporary .data generation)
  let index ← Disk.orElse (Disk.create (temporary .index generation))
    (Disk.attempt (.unlink (temporary .data generation)))
  return {
    generation, sync
    data := .ofFile data
    index := ← (Stream.ofFile index).write (Layout.slotBytes 0)
    offset := 0
    count := 0
    last := none
    checksum := .start }

/-- Why an entry is refused: its key does not come after the last one. -/
def refusal? (builder : Builder) (entry : Entry) : Option Error :=
  match builder.last with
  | none => none
  | some last =>
    if last < entry.key then none else some (.outOfOrder builder.generation entry.key last)

/-- Writes an entry at the end of both files. -/
def push (builder : Builder) (entry : Entry) : StateM Disk Builder := do
  let keyEnd := builder.offset + entry.key.length
  let valueEnd := builder.offset + entry.byteSize
  let data ← builder.data.write entry.key
  let data ← data.write entry.valueBytes
  let index ← builder.index.write (Layout.slotBytes (Layout.boundary keyEnd entry.isTombstone))
  let index ← index.write (Layout.slotBytes (UInt64.ofNat valueEnd))
  return { builder with
    data, index
    offset := valueEnd
    count := builder.count + 1
    last := some entry.key
    checksum := (builder.checksum.update entry.key).update entry.valueBytes }

/-- Adds an entry unless it is refused. -/
def add (builder : Builder) (entry : Entry) : DiskM Builder :=
  match builder.refusal? entry with
  | some error => throw error
  | none => builder.push entry

/-- Adds entries up to the first one that is refused, and returns the builder after them with the
reason why it went no further. -/
def addAll (builder : Builder) : List Entry → StateM Disk (Builder × Option Error)
  | [] => return (builder, none)
  | entry :: rest =>
    match builder.refusal? entry with
    | some error => return (builder, some error)
    | none => do
      let builder ← builder.push entry
      builder.addAll rest

/-- Takes both temporary files away. -/
def removeTemporaries (generation : UInt64) : StateM Disk Unit := do
  Disk.attempt (.unlink (temporary .data generation))
  Disk.attempt (.unlink (temporary .index generation))

/-- Gives the builder up: what was kept back is still passed on before the files are taken away. -/
def discard (builder : Builder) : StateM Disk Unit := do
  let _ ← builder.data.flush
  let _ ← builder.index.flush
  removeTemporaries builder.generation

/-- What the manifest is to record of a segment whose files have the given lengths. -/
def info (builder : Builder) (dataLen indexLen : Nat) : SegmentMeta where
  generation := builder.generation
  entryCount := .ofNat builder.count
  dataLen := .ofNat dataLen
  indexLen := .ofNat indexLen
  dataCrc := some builder.checksum.value

/-- Gives both files their final names, the data first. If the second cannot have its name, the first
is taken away again. -/
def publish (generation : UInt64) : DiskM Unit := do
  let data := FileName.segment .data generation
  Disk.mutate (.rename (temporary .data generation) data)
  Disk.orElse
    (Disk.mutate (.rename (temporary .index generation) (FileName.segment .index generation)))
    (Disk.attempt (.unlink data))

/-- Puts the segment in place and returns its record; without entries there is nothing to put in
place. -/
def finish (builder : Builder) : DiskM (Option SegmentMeta) := do
  if builder.count = 0 then
    builder.discard
    return none
  let _ ← builder.data.flush
  let _ ← builder.index.flush
  let dataLen ← Disk.fileLength builder.data.file
  let indexLen ← Disk.fileLength builder.index.file
  Disk.orElse (publish builder.generation) (removeTemporaries builder.generation)
  -- The files stay in place even if the directory cannot be synced.
  if builder.sync then
    Disk.sync
  return some (builder.info dataLen indexLen)

end Builder

end LsmTree
