import LsmTree.Engine
import LsmTree.Proofs.MergeOrder
import LsmTree.Proofs.SegmentSearch
import LsmTree.Proofs.TableCursor

/-!
# The two ways of reading

A key is looked up layer by layer, newest first, and the first layer that has it decides. A range is a
merge of cursors over the same layers. Both show the newest version of each key:

* **`Leaf.pending_reader`** — what a cursor over one layer has still to yield;
* **`merged_ascending`**, **`mem_merged`** — a merge of layers yields, in ascending order, the live
  versions that a walk over the layers finds;
* **`Engine.range_agrees_with_get`** — so a range holds what its keys have for values.
-/

namespace LsmTree

/-! ## Cursors over layers -/

namespace Leaf

/-- The entries that a cursor has still to yield, as its table is now. -/
def pending (memory : Memory) : Leaf → List Entry
  | list entries => entries
  | table id cursor => cursor.pending (memory.table id)
  | segment handle cursor => cursor.pending handle.segment

/-- While nothing is written, reading to the end yields what is pending. -/
theorem pending_reader (memory : Memory) (leaf : Leaf) :
    (reader memory).pending leaf = leaf.pending memory := by
  apply (reader memory).pending_eq (Leaf.pending memory)
  · intro leaf
    cases leaf with
    | list entries => cases entries <;> rfl
    | table id cursor => exact Memtable.Cursor.next_fst _ cursor
    | segment handle cursor => exact Segment.Cursor.next_fst _ cursor
  · intro leaf
    cases leaf with
    | list entries => cases entries <;> rfl
    | table id cursor => exact Memtable.Cursor.pending_next _ cursor
    | segment handle cursor => exact Segment.Cursor.pending_next _ cursor

theorem pending_ofTable (memory : Memory) (id : Nat) (range : KeyRange) :
    (ofTable id range).pending memory =
      (memory.table id).entries.filter fun entry => range.contains entry.key :=
  Memtable.pending_ofRange (memory.table id) range

theorem pending_ofHandle (memory : Memory) {handle : Handle}
    (hasc : Ascending handle.segment.entries) (range : KeyRange) :
    (ofHandle handle range).pending memory =
      handle.segment.entries.filter fun entry => range.contains entry.key :=
  Segment.pending_ofRange hasc range

end Leaf

/-! ## Merges of layers -/

section Layers

variable {memory : Memory} {tables : List Nat} {handles : List Handle} {range : KeyRange}

/-- The first version of a key in a walk over tables and then segments. -/
def newestIn (memory : Memory) (tables : List Nat) (segments : List Segment) (key : Bytes) :
    Option Entry :=
  (tables.findSome? fun id => (memory.table id).get? key).or
    (segments.findSome? fun segment => segment.find? key)

/-- Cursors over a range of tables and then of segments. -/
def layersIn (tables : List Nat) (handles : List Handle) (range : KeyRange) : List Leaf :=
  tables.map (fun id => Leaf.ofTable id range) ++
    handles.map (fun handle => Leaf.ofHandle handle range)

/-- What a merge of tables and then of segments yields in a range. -/
def merged (memory : Memory) (tables : List Nat) (handles : List Handle) (range : KeyRange) :
    List Entry :=
  (Merge.reader (Leaf.reader memory)).pending
    (Merge.ofSources (Leaf.reader memory) (layersIn tables handles range))

/-- Each layer has its entries in the range pending. -/
theorem map_pending_layersIn (hasc : ∀ handle ∈ handles, Ascending handle.segment.entries) :
    (layersIn tables handles range).map (Leaf.reader memory).pending =
      (tables.map (fun id => (memory.table id).entries) ++
        handles.map (fun handle => handle.segment.entries)).map
          (List.filter fun entry => range.contains entry.key) := by
  have htables : ∀ id, (Leaf.reader memory).pending (Leaf.ofTable id range) =
      (memory.table id).entries.filter fun entry => range.contains entry.key := by
    intro id
    rw [Leaf.pending_reader, Leaf.pending_ofTable]
  have hhandles : ∀ handle ∈ handles, (Leaf.reader memory).pending (Leaf.ofHandle handle range) =
      handle.segment.entries.filter fun entry => range.contains entry.key := by
    intro handle hmem
    rw [Leaf.pending_reader, Leaf.pending_ofHandle memory (hasc handle hmem)]
  simp only [layersIn, List.map_append, List.map_map, Function.comp_def, htables]
  congr 1
  exact List.map_congr_left hhandles

theorem ascending_of_mem_pendings (hasc : ∀ handle ∈ handles, Ascending handle.segment.entries) :
    ∀ entries ∈ Merge.pendings (Leaf.reader memory)
      (Merge.ofSources (Leaf.reader memory) (layersIn tables handles range)).heads,
      Ascending entries := by
  rw [Merge.pendings_ofSources, map_pending_layersIn hasc]
  intro entries hmem
  obtain ⟨whole, hwhole, rfl⟩ := List.mem_map.1 (List.mem_filter.1 hmem).1
  refine Ascending.filter ?_ _
  rcases List.mem_append.1 hwhole with hwhole | hwhole
  · obtain ⟨id, -, rfl⟩ := List.mem_map.1 hwhole
    exact (memory.table id).ascending
  · obtain ⟨handle, hhandle, rfl⟩ := List.mem_map.1 hwhole
    exact hasc handle hhandle

theorem merged_ascending (hasc : ∀ handle ∈ handles, Ascending handle.segment.entries) :
    Ascending (merged memory tables handles range) :=
  Merge.pending_ascending (ascending_of_mem_pendings hasc)

/-- Restricted to a range, layers are found to have the keys in the range and no others. -/
theorem findSome?_map_filter_range (lists : List (List Entry)) (range : KeyRange) (key : Bytes) :
    (lists.map (List.filter fun entry => range.contains entry.key)).findSome?
        (fun entries => lookup entries key) =
      if range.contains key then lists.findSome? fun entries => lookup entries key else none := by
  induction lists with
  | nil => simp
  | cons entries rest ih =>
    simp only [List.map_cons, List.findSome?_cons, lookup_filter_range, ih]
    by_cases h : range.contains key = true
    · simp [h]
    · simp [h]

theorem findSome?_find? (hasc : ∀ handle ∈ handles, Ascending handle.segment.entries) (key : Bytes) :
    (handles.map Handle.segment).findSome? (fun segment => segment.find? key) =
      (handles.map fun handle => handle.segment.entries).findSome? fun entries =>
        lookup entries key := by
  induction handles with
  | nil => rfl
  | cons handle rest ih =>
    have hfirst := Segment.find?_eq_lookup (hasc handle (by simp)) key
    simp only [List.map_cons, List.findSome?_cons, hfirst, ih fun h hmem => hasc h (by simp [hmem])]

theorem key_of_newestIn (hasc : ∀ handle ∈ handles, Ascending handle.segment.entries) {key : Bytes}
    {entry : Entry} (h : newestIn memory tables (handles.map Handle.segment) key = some entry) :
    entry.key = key := by
  rw [newestIn, Option.or_eq_some_iff] at h
  rcases h with h | ⟨-, h⟩
  · obtain ⟨id, -, hget⟩ := List.exists_of_findSome?_eq_some h
    exact key_of_lookup hget
  · rw [findSome?_find? hasc] at h
    obtain ⟨entries, -, hget⟩ := List.exists_of_findSome?_eq_some h
    exact key_of_lookup hget

/-- The first head that has a key of the range has the version that a walk over the layers finds. -/
theorem findSome?_pendings (hasc : ∀ handle ∈ handles, Ascending handle.segment.entries) (key : Bytes) :
    (Merge.pendings (Leaf.reader memory)
        (Merge.ofSources (Leaf.reader memory) (layersIn tables handles range)).heads).findSome?
        (fun entries => lookup entries key) =
      if range.contains key then newestIn memory tables (handles.map Handle.segment) key else none := by
  have htables : (tables.map fun id => (memory.table id).entries).findSome?
      (fun entries => lookup entries key) =
        tables.findSome? fun id => (memory.table id).get? key := by
    rw [List.findSome?_map]
    rfl
  rw [Merge.pendings_ofSources, map_pending_layersIn hasc, findSome?_filter_nonempty,
    findSome?_map_filter_range, List.findSome?_append, htables, ← findSome?_find? hasc]
  rfl

/-- **A merge of layers yields the live versions that a walk over the layers finds.** -/
theorem mem_merged (hasc : ∀ handle ∈ handles, Ascending handle.segment.entries) {entry : Entry} :
    entry ∈ merged memory tables handles range ↔
      range.contains entry.key = true ∧
        newestIn memory tables (handles.map Handle.segment) entry.key = some entry ∧
        entry.isTombstone = false := by
  rw [merged, Merge.mem_pending_iff (ascending_of_mem_pendings hasc), findSome?_pendings hasc]
  cases hin : range.contains entry.key with
  | true => simp
  | false => simp

/-- A merge yields the live entries that a walk over the layers finds. -/
theorem mem_merged_iff_value (hasc : ∀ handle ∈ handles, Ascending handle.segment.entries)
    {entry : Entry} : entry ∈ merged memory tables handles range ↔
      ∃ value, entry = .put entry.key value ∧
        (newestIn memory tables (handles.map Handle.segment) entry.key).bind Entry.value = some value ∧
        range.contains entry.key = true := by
  rw [mem_merged hasc]
  constructor
  · rintro ⟨hbounds, hfound, hlive⟩
    obtain ⟨key, _ | value⟩ := entry
    · simp [Entry.isTombstone] at hlive
    · exact ⟨value, rfl, by rw [hfound]; rfl, hbounds⟩
  · rintro ⟨value, hput, hvalue, hbounds⟩
    cases hfound : newestIn memory tables (handles.map Handle.segment) entry.key with
    | none => simp [hfound] at hvalue
    | some found =>
      -- What is found has the key asked for, so it is the entry itself.
      have hkey : found.key = entry.key := key_of_newestIn hasc hfound
      have hfoundValue : found.value = some value := by simpa [hfound] using hvalue
      have hsame : found = entry := by
        rw [hput]
        cases found
        cases hkey
        cases hfoundValue
        rfl
      refine ⟨hbounds, by rw [hsame], ?_⟩
      rw [hput]
      rfl

end Layers

/-! ## Engines -/

namespace Engine

theorem find?_eq_newestIn (memory : Memory) (engine : Engine) (key : Bytes) :
    engine.find? memory key = newestIn memory engine.tables engine.live key := rfl

theorem contains_iff (start stop : Option Bytes) (key : Bytes) :
    (KeyRange.mk start stop).contains key = true ↔
      (∀ low, start = some low → low ≤ key) ∧ ∀ high, stop = some high → key < high := by
  rw [KeyRange.contains, Bool.and_eq_true]
  refine and_congr ?_ ?_
  · cases start with
    | none => simp [KeyRange.startsBefore]
    | some low => simp [KeyRange.startsBefore]
  · cases stop with
    | none => simp [KeyRange.endsAfter]
    | some high => simp [KeyRange.endsAfter]

/-- **The two ways of reading agree.** While nothing is written, reading a range of an open engine to
the end yields each key within the bounds once, in ascending order, with the value that a lookup of the
key answers, and no key for which a lookup answers none. -/
theorem range_agrees_with_get (memory : Memory) (engine : Engine) (start stop : Option Bytes)
    (hopen : engine.closed = false) (hasc : ∀ segment ∈ engine.live, Ascending segment.entries) :
    ∃ merge, engine.range memory ⟨start, stop⟩ = .ok merge ∧
      Ascending ((Merge.reader (Leaf.reader memory)).drain merge).1 ∧
      ∀ entry, entry ∈ ((Merge.reader (Leaf.reader memory)).drain merge).1 ↔
        ∃ value, entry = .put entry.key value ∧
          engine.get memory entry.key = .ok (some value) ∧
          (∀ low, start = some low → low ≤ entry.key) ∧
          ∀ high, stop = some high → entry.key < high := by
  have hhandles : ∀ handle ∈ engine.segments, Ascending handle.segment.entries := fun handle hmem =>
    hasc handle.segment (List.mem_map_of_mem hmem)
  refine ⟨_, by rw [range, hopen]; rfl, merged_ascending hhandles, fun entry => ?_⟩
  have hget : engine.get memory entry.key =
      .ok ((newestIn memory engine.tables engine.live entry.key).bind Entry.value) := by
    rw [get, hopen, find?_eq_newestIn]
    rfl
  rw [hget, ← contains_iff]
  refine (mem_merged_iff_value hhandles).trans (exists_congr fun value => and_congr_right fun _ => ?_)
  rw [Except.ok.injEq]
  rfl

/-- Three tables: one that deletes key 1 and writes key 2, one that writes key 1, and an empty one. -/
def layeredMemory : Memory where
  tables := [Memtable.empty.insert (.put [1] [7]),
    (Memtable.empty.insert (.tombstone [1])).insert (.put [2] []), .empty]
  openings := 1

/-- An engine over these tables and a segment that has keys 1, 2 and 3. -/
def layered : Engine where
  config := {}
  manager := ⟨true, 2⟩
  closed := false
  active := 1
  queue := [0]
  segments := [⟨0, "data", ⟨1, [1, 9, 2, 9, 3, 9], [0, 1, 2, 3, 4, 5, 6], none⟩⟩]

/-- Of the keys from 1 on, the deleted one is hidden, and one has the empty value. -/
theorem range_agrees_with_get_layered :
    (layered.closed = false ∧ ∀ segment ∈ layered.live, Ascending segment.entries) ∧
    ∃ merge, layered.range layeredMemory ⟨some [1], none⟩ = .ok merge ∧
      Ascending ((Merge.reader (Leaf.reader layeredMemory)).drain merge).1 ∧
      ∀ entry, entry ∈ ((Merge.reader (Leaf.reader layeredMemory)).drain merge).1 ↔
        ∃ value, entry = .put entry.key value ∧
          layered.get layeredMemory entry.key = .ok (some value) ∧
          (∀ low, some [1] = some low → low ≤ entry.key) ∧
          ∀ high, none = some high → entry.key < high := by
  have hasc : ∀ segment ∈ layered.live, Ascending segment.entries := by
    unfold Ascending
    decide
  exact ⟨⟨rfl, hasc⟩, range_agrees_with_get layeredMemory layered (some [1]) none rfl hasc⟩

end Engine

end LsmTree
