import LsmTree.Proofs.OpeningEffects
import LsmTree.Proofs.SegmentRoundTrip

/-!
# Reads that stay inside the files

An opened segment is read by position: slots of the index tell where to cut the data. Nothing but the check
at the opening keeps these reads inside the files, and the keys need not be in any order. Here the same reads
are written down once more, each refusing what lies outside the file it reads, and each search giving up
after a number of comparisons:

* **`Layout.slice?`**, **`Layout.slot?`** — the two ways in which a file is read;
* **`Guarded.find?`**, **`Guarded.cursor?`**, **`Guarded.steps?`** — lookups and cursors made of them;
* **`Segment.Sound`** — what the check of an index grants about the slots at each position;
* **`Guarded.opened_reads_inside`** — on files that open nothing is refused and no search gives up.
-/

namespace LsmTree

/-! ## Reads that may be refused -/

namespace Layout

/-- The part of a file between two offsets, refused unless they are in order and inside the file. -/
def slice? (bytes : Bytes) (start stop : Nat) : Option Bytes :=
  if start ≤ stop ∧ stop ≤ bytes.length then some (slice bytes start stop) else none

/-- A slot of an index file, refused unless the file holds all of its octets. -/
def slot? (index : Bytes) (i : Nat) : Option UInt64 := do
  let octets ← slice? index (8 * i) (8 * i + 8)
  return UInt64.ofNat (Bytes.ofWord octets)

theorem slice?_eq_some {bytes : Bytes} {start stop : Nat} (hle : start ≤ stop)
    (hlength : stop ≤ bytes.length) : slice? bytes start stop = some (slice bytes start stop) :=
  if_pos ⟨hle, hlength⟩

/-- **The slots of an index file** are those that reading it does not refuse. -/
theorem slot?_eq (index : Bytes) (i : Nat) : slot? index i = (slots index)[i]? := by
  fun_induction slots index generalizing i with
  | case1 index hshort =>
    rw [slot?, slice?, if_neg (by omega)]
    rfl
  | case2 index hlong ih =>
    cases i with
    | zero =>
      have hfirst : 0 ≤ 8 ∧ 8 ≤ index.length := by omega
      rw [slot?, slice?, if_pos hfirst]
      rfl
    | succ i =>
      rw [List.getElem?_cons_succ, ← ih, slot?, slot?]
      have hslice : slice? index (8 * (i + 1)) (8 * (i + 1) + 8) =
          slice? (index.drop 8) (8 * i) (8 * i + 8) := by
        have hsame : slice index (8 * (i + 1)) (8 * (i + 1) + 8) =
            slice (index.drop 8) (8 * i) (8 * i + 8) := by
          have hfront : 8 + 8 * i = 8 * (i + 1) := by omega
          have hwidth : 8 * (i + 1) + 8 - 8 * (i + 1) = 8 * i + 8 - 8 * i := by omega
          rw [slice, slice, List.drop_drop, hfront, hwidth]
        rw [slice?, slice?, hsame, List.length_drop]
        exact if_congr (by omega) rfl rfl
      rw [hslice]

theorem length_slots (index : Bytes) : (slots index).length = index.length / 8 := by
  fun_induction slots index with
  | case1 index hshort => exact (Nat.div_eq_of_lt hshort).symm
  | case2 index hlong ih =>
    rw [List.length_cons, ih, List.length_drop]
    omega

end Layout

/-- The two files of a segment. -/
structure Guarded where
  data : Bytes
  index : Bytes

namespace Guarded

open Segment (Cursor Probe)

/-- How many entries the index has room for. -/
def count (files : Guarded) : Nat := files.index.length / 8 / 2

/-- The key at a position. -/
def keyAt? (files : Guarded) (i : Nat) : Option Bytes := do
  let start ← Layout.slot? files.index (2 * i)
  let stop ← Layout.slot? files.index (2 * i + 1)
  Layout.slice? files.data start.toNat (Layout.offset stop)

/-- The entry at a position. The end of the value is read only if there is one. -/
def entryAt? (files : Guarded) (i : Nat) : Option Entry := do
  let key ← files.keyAt? i
  let keyEnd ← Layout.slot? files.index (2 * i + 1)
  if Layout.isFlagged keyEnd then
    return .tombstone key
  let valueEnd ← Layout.slot? files.index (2 * i + 2)
  let value ← Layout.slice? files.data (Layout.offset keyEnd) valueEnd.toNat
  return .put key value

/-- Searches by halving and gives up when it has compared `fuel` keys and is not done. -/
def searchBetween? (files : Guarded) (key : Bytes) : (fuel low high : Nat) → Option Probe
  | 0, low, high => if low < high then none else some (.miss low)
  | fuel + 1, low, high =>
    if low < high then do
      let middle := low + (high - low) / 2
      let found ← files.keyAt? middle
      match Bytes.order found key with
      | .lt => files.searchBetween? key fuel (middle + 1) high
      | .gt => files.searchBetween? key fuel low middle
      | .eq => some (.hit middle)
    else some (.miss low)

/-- Searches all positions. -/
def search? (files : Guarded) (fuel : Nat) (key : Bytes) : Option Probe :=
  files.searchBetween? key fuel 0 files.count

/-- Looks a key up. -/
def find? (files : Guarded) (fuel : Nat) (key : Bytes) : Option (Option Entry) := do
  match ← files.search? fuel key with
  | .hit position => return some (← files.entryAt? position)
  | .miss _ => return none

/-- The cursor before the first entry of a range. -/
def cursor? (files : Guarded) (fuel : Nat) (range : KeyRange) : Option Cursor := do
  let start ← match range.start with
    | none => some 0
    | some key => (files.search? fuel key).map Probe.position
  let stop ← match range.stop with
    | none => some files.count
    | some key => (files.search? fuel key).map Probe.position
  return ⟨start, max stop start⟩

/-- One step of a cursor. -/
def next? (files : Guarded) (cursor : Cursor) : Option (Option Entry × Cursor) :=
  if cursor.position < cursor.stop then do
    let entry ← files.entryAt? cursor.position
    return (some entry, { cursor with position := cursor.position + 1 })
  else some (none, cursor)

/-- What a number of steps yield, those past the end included. -/
def steps? (files : Guarded) : (count : Nat) → Cursor → Option (List (Option Entry) × Cursor)
  | 0, cursor => some ([], cursor)
  | count + 1, cursor => do
    let (head, cursor) ← files.next? cursor
    let (rest, cursor) ← files.steps? count cursor
    return (head :: rest, cursor)

end Guarded

/-! ## What the check of an index grants -/

namespace Segment

/-- There are slots for every position, and the offsets in them are in order and inside the data. -/
structure Sound (segment : Segment) : Prop where
  slots : segment.slots.length = 2 * segment.count + 1
  key : ∀ i < segment.count, (segment.keyBounds i).1 ≤ (segment.keyBounds i).2
  value : ∀ i < segment.count, (segment.keyBounds i).2 ≤ (segment.slot (2 * i + 2)).toNat
  data : ∀ i < segment.count, (segment.slot (2 * i + 2)).toNat ≤ segment.data.length

variable {generation : UInt64} {recorded : Option SegmentMeta} {verified : Bool} {data index : Bytes}
  {segment : Segment}

/-- A segment made of entries is sound, since each offset is the length of what comes before. -/
theorem sound_ofEntries (generation : UInt64) (entries : List Entry)
    (hlength : (Layout.data entries).length < Layout.offsetSize) :
    (ofEntries generation entries).Sound := by
  have hkept : ∀ i, (Layout.data (entries.take i)).length ≤ (Layout.data entries).length := by
    intro i
    rw [← List.take_append_drop i entries, Layout.data_append, List.length_append, List.take_append_drop]
    exact Nat.le_add_right _ _
  have heven : ∀ i ≤ entries.length, ((ofEntries generation entries).slot (2 * i)).toNat =
      (Layout.data (entries.take i)).length := by
    intro i hi
    rw [slot_ofEntries_even hi, Layout.toNat_ofNat (Nat.lt_of_le_of_lt (hkept i) hlength)]
  have hnext : ∀ i (hi : i < entries.length), (Layout.data (entries.take (i + 1))).length =
      (Layout.data (entries.take i)).length + entries[i].byteSize := by
    intro i hi
    rw [List.take_add_one, List.getElem?_eq_getElem hi, Layout.data_append, List.length_append]
    simp [Layout.length_entryBytes]
  have hodd : ∀ i (hi : i < entries.length), Layout.offset ((ofEntries generation entries).slot (2 * i + 1)) =
      (Layout.data (entries.take i)).length + entries[i].key.length := by
    intro i hi
    have hsize : entries[i].byteSize = entries[i].key.length + entries[i].valueBytes.length := rfl
    have hle := hkept (i + 1)
    rw [hnext i hi] at hle
    rw [slot_ofEntries_odd hi, Layout.offset_boundary (by omega)]
  have hcount : (ofEntries generation entries).count = entries.length := count_ofEntries
  refine ⟨?_, fun i hi => ?_, fun i hi => ?_, fun i hi => ?_⟩
  · rw [hcount]
    exact Layout.length_slotsOf entries
  · rw [hcount] at hi
    rw [keyBounds, heven i (Nat.le_of_lt hi), hodd i hi]
    exact Nat.le_add_right _ _
  · rw [hcount] at hi
    rw [keyBounds, hodd i hi, show 2 * i + 2 = 2 * (i + 1) from rfl, heven (i + 1) hi, hnext i hi,
      Entry.byteSize]
    omega
  · rw [hcount] at hi
    rw [show 2 * i + 2 = 2 * (i + 1) from rfl, heven (i + 1) hi]
    exact hkept (i + 1)

/-- **A segment that opens is sound**, and its slots are those of the index file. -/
theorem sound_of_ofFiles (h : ofFiles generation recorded verified data index = .ok segment) :
    segment.Sound ∧ segment.data = data ∧ segment.slots = Layout.slots index := by
  obtain ⟨slots, hchecked, hopened⟩ := ofFiles_eq_ok h
  obtain ⟨hslots, -, hdata⟩ := Layout.layout_of_checkIndex hchecked
  obtain ⟨hindex, -⟩ := Layout.of_checkIndex hchecked
  have hlength := Layout.length_lt_of_checkIndex hchecked
  have hsame : segment.data = data ∧ segment.slots = slots := by
    cases verified with
    | false =>
      obtain rfl := Except.ok.inj hopened
      exact ⟨rfl, rfl⟩
    | true =>
      obtain ⟨rfl, -⟩ := verify_eq_ok hopened
      exact ⟨rfl, rfl⟩
  -- Soundness is about the data and the slots alone, which are those of the entries cut out.
  have hsound := sound_ofEntries generation (Layout.cut data 0 slots.tail) (by rw [hdata]; exact hlength)
  rw [ofEntries, hslots, hdata] at hsound
  obtain ⟨generation', data', slots', crc⟩ := segment
  obtain ⟨rfl, rfl⟩ := hsame
  exact ⟨⟨hsound.slots, hsound.key, hsound.value, hsound.data⟩, rfl, hindex⟩

/-! ## Searches among keys in any order -/

/-- **Where a search may end:** at a position with the key, or anywhere between the bounds. -/
theorem searchBetween_within (segment : Segment) (key : Bytes) {low high : Nat} (hle : low ≤ high) :
    match segment.searchBetween key low high with
    | .hit p => p < high ∧ segment.keyAt p = key
    | .miss p => p ≤ high := by
  fun_induction searchBetween segment key low high with
  | case1 low high hlt middle horder ih => exact ih (by omega)
  | case2 low high hlt middle horder ih =>
    have hlower := ih (by omega)
    split at hlower
    · exact ⟨by omega, hlower.2⟩
    · exact Nat.le_trans hlower (by omega)
  | case3 low high hlt middle horder => exact ⟨by omega, Bytes.order_eq_eq.1 horder⟩
  | case4 low high hge => exact hle

theorem position_le (segment : Segment) (key : Bytes) : (segment.search key).position ≤ segment.count := by
  have hwithin := segment.searchBetween_within key (Nat.zero_le segment.count)
  rw [search]
  split at hwithin
  · next p hsearch =>
    rw [hsearch]
    exact Nat.le_of_lt hwithin.1
  · next p hsearch =>
    rw [hsearch]
    exact hwithin

/-- An entry that is found is at some position and has the key. -/
theorem exists_of_find? {key : Bytes} {entry : Entry} (h : segment.find? key = some entry) :
    ∃ i < segment.count, segment.entryAt i = entry ∧ entry.key = key := by
  have hwithin := segment.searchBetween_within key (Nat.zero_le segment.count)
  rw [find?, search] at h
  split at hwithin
  · next p hsearch =>
    rw [hsearch] at h
    obtain rfl := Option.some.inj h
    exact ⟨p, hwithin.1, rfl, (key_entryAt segment p).trans hwithin.2⟩
  · next p hsearch =>
    rw [hsearch] at h
    cases h

/-- **A range spans positions of the segment**, whatever its bounds are. -/
theorem span_within (segment : Segment) (range : KeyRange) :
    (segment.span range).1 ≤ (segment.span range).2 ∧ (segment.span range).2 ≤ segment.count := by
  refine ⟨Nat.le_max_right _ _, Nat.max_le.2 ⟨?_, ?_⟩⟩
  · split
    · exact Nat.le_refl _
    · exact segment.position_le _
  · split
    · exact Nat.zero_le _
    · exact segment.position_le _

theorem rangeEntries_eq_take_drop (segment : Segment) (range : KeyRange) :
    segment.rangeEntries range = (segment.entries.drop (segment.span range).1).take
      ((segment.span range).2 - (segment.span range).1) :=
  (pending_cursorReader segment (Cursor.ofRange segment range)).trans
    (pending_eq_take_drop (segment.span_within range).2)

end Segment

/-! ## No read is refused -/

namespace Guarded

open Segment (Cursor Probe)

/-- The files of a sound segment. -/
structure Backs (files : Guarded) (segment : Segment) : Prop where
  sound : segment.Sound
  data : segment.data = files.data
  slots : segment.slots = Layout.slots files.index
  count : files.count = segment.count

variable {files : Guarded} {segment : Segment}

theorem Backs.slot? (h : files.Backs segment) {i : Nat} (hi : i ≤ 2 * segment.count) :
    Layout.slot? files.index i = some (segment.slot i) := by
  have hlt : i < segment.slots.length := by
    rw [h.sound.slots]
    omega
  rw [Layout.slot?_eq, ← h.slots, Segment.slot, List.getElem?_eq_getElem hlt, List.getD_eq_getElem?_getD,
    List.getElem?_eq_getElem hlt]
  rfl

theorem Backs.keyAt? (h : files.Backs segment) {i : Nat} (hi : i < segment.count) :
    files.keyAt? i = some (segment.keyAt i) := by
  have hstop := Nat.le_trans (h.sound.value i hi) (h.sound.data i hi)
  rw [Guarded.keyAt?, h.slot? (by omega), h.slot? (by omega), Segment.keyAt, h.data]
  exact Layout.slice?_eq_some (h.sound.key i hi) (h.data ▸ hstop)

theorem Backs.entryAt? (h : files.Backs segment) {i : Nat} (hi : i < segment.count) :
    files.entryAt? i = some (segment.entryAt i) := by
  have hvalue : Layout.slice? files.data (Layout.offset (segment.slot (2 * i + 1)))
      (segment.slot (2 * i + 2)).toNat = some (segment.valueAt i) := by
    rw [Segment.valueAt, h.data]
    exact Layout.slice?_eq_some (h.sound.value i hi) (h.data ▸ h.sound.data i hi)
  rw [Guarded.entryAt?, h.keyAt? hi, h.slot? (by omega), h.slot? (by omega), Segment.entryAt]
  simp only [Option.bind_eq_bind, Option.bind_some, hvalue]
  split <;> rfl

/-- **No search is refused, and none gives up:** each comparison halves what is left. Induction on the count
of comparisons. -/
theorem Backs.searchBetween? (h : files.Backs segment) (key : Bytes) {fuel low high : Nat}
    (hhigh : high ≤ segment.count) (hfuel : high - low < 2 ^ fuel) :
    files.searchBetween? key fuel low high = some (segment.searchBetween key low high) := by
  induction fuel generalizing low high with
  | zero =>
    have hge : ¬ low < high := by omega
    rw [Guarded.searchBetween?, if_neg hge, Segment.searchBetween, if_neg hge]
  | succ fuel ih =>
    rw [Guarded.searchBetween?, Segment.searchBetween]
    by_cases hlt : low < high
    · rw [Nat.pow_succ] at hfuel
      have hmiddle : low + (high - low) / 2 < segment.count := by omega
      rw [if_pos hlt, if_pos hlt]
      simp only [h.keyAt? hmiddle, Option.bind_eq_bind, Option.bind_some]
      cases Bytes.order (segment.keyAt (low + (high - low) / 2)) key with
      | lt => exact ih hhigh (by omega)
      | gt => exact ih (Nat.le_of_lt hmiddle) (by omega)
      | eq => rfl
    · rw [if_neg hlt, if_neg hlt]

theorem Backs.search? (h : files.Backs segment) (key : Bytes) {fuel : Nat}
    (hfuel : segment.count < 2 ^ fuel) : files.search? fuel key = some (segment.search key) := by
  rw [Guarded.search?, h.count]
  exact h.searchBetween? key (Nat.le_refl _) (by omega)

theorem Backs.find? (h : files.Backs segment) (key : Bytes) {fuel : Nat}
    (hfuel : segment.count < 2 ^ fuel) : files.find? fuel key = some (segment.find? key) := by
  have hwithin := segment.searchBetween_within key (Nat.zero_le segment.count)
  rw [Guarded.find?, h.search? key hfuel, Segment.find?, Segment.search]
  split at hwithin
  · next p hsearch =>
    simp only [hsearch, Option.bind_eq_bind, Option.bind_some, h.entryAt? hwithin.1]
    rfl
  · next p hsearch =>
    simp only [hsearch, Option.bind_eq_bind, Option.bind_some]
    rfl

theorem Backs.cursor? (h : files.Backs segment) (range : KeyRange) {fuel : Nat}
    (hfuel : segment.count < 2 ^ fuel) :
    files.cursor? fuel range = some (.ofRange segment range) := by
  have hsearch := fun key => h.search? key hfuel
  obtain ⟨start, stop⟩ := range
  cases start <;> cases stop <;>
    simp [Guarded.cursor?, Segment.Cursor.ofRange, Segment.span, hsearch, h.count]

theorem Backs.next? (h : files.Backs segment) {cursor : Cursor} (hstop : cursor.stop ≤ segment.count) :
    files.next? cursor = some (segment.cursorReader.next cursor) := by
  rw [Guarded.next?]
  show _ = some (if cursor.position < cursor.stop then _ else _)
  split
  · next hlt =>
    rw [h.entryAt? (by omega)]
    rfl
  · rfl

/-- A cursor never moves its end. -/
theorem stop_next (segment : Segment) (cursor : Cursor) :
    (segment.cursorReader.next cursor).2.stop = cursor.stop := by
  show (if cursor.position < cursor.stop then _ else _ : Option Entry × Cursor).2.stop = _
  split <;> rfl

theorem Backs.steps? (h : files.Backs segment) (count : Nat) {cursor : Cursor}
    (hstop : cursor.stop ≤ segment.count) :
    files.steps? count cursor = some (segment.cursorReader.steps count cursor) := by
  induction count generalizing cursor with
  | zero => rfl
  | succ count ih =>
    rw [Guarded.steps?, h.next? hstop]
    simp only [Option.bind_eq_bind, Option.bind_some]
    rw [ih (by rw [stop_next]; exact hstop)]
    rfl

/-- **What opens is read inside its files.** Whatever the files of a generation hold, if they open as a
segment then no lookup and no cursor, over any range and for any number of steps, reads a slot outside the
index or a part outside the data, or one that ends before it starts; and every search is done after so many
comparisons as halve the count of entries to nothing. What a lookup finds is at some position and has the key
looked up, and a range yields the entries of positions next to each other. The keys need not ascend. -/
theorem opened_reads_inside {generation : UInt64} {recorded : Option SegmentMeta} {verified : Bool}
    {disk after : Disk}
    (hopen : (Segment.load generation recorded verified).run.run disk = (.ok segment, after)) :
    ∃ data index,
      disk.snapshot.file? (FileName.segment .data generation) = some data ∧
      disk.snapshot.file? (FileName.segment .index generation) = some index ∧
      (∀ fuel, segment.count < 2 ^ fuel →
        (∀ key, find? ⟨data, index⟩ fuel key = some (segment.find? key)) ∧
        ∀ range, cursor? ⟨data, index⟩ fuel range = some (.ofRange segment range)) ∧
      (∀ range count, steps? ⟨data, index⟩ count (.ofRange segment range) =
        some (segment.cursorReader.steps count (.ofRange segment range))) ∧
      (∀ key entry, segment.find? key = some entry →
        ∃ i < segment.count, segment.entryAt i = entry ∧ entry.key = key) ∧
      ∀ range, ∃ start stop, start ≤ stop ∧ stop ≤ segment.count ∧
        segment.rangeEntries range = (segment.entries.drop start).take (stop - start) := by
  obtain ⟨-, hfound⟩ := @Segment.looks_load disk generation recorded verified
  obtain ⟨data, index, hdata, hindex, hfiles⟩ := hfound segment (congrArg Prod.fst hopen)
  obtain ⟨hsound, hsame, hslots⟩ := Segment.sound_of_ofFiles hfiles
  have hbacks : Backs ⟨data, index⟩ segment := by
    refine ⟨hsound, hsame, hslots, ?_⟩
    rw [Segment.count, hslots, Layout.length_slots, count]
  refine ⟨data, index, hdata, hindex, fun fuel hfuel => ⟨fun key => hbacks.find? key hfuel, fun range =>
    hbacks.cursor? range hfuel⟩, fun range count => ?_, fun key entry => Segment.exists_of_find?, fun range =>
    ⟨_, _, (segment.span_within range).1, (segment.span_within range).2,
      segment.rangeEntries_eq_take_drop range⟩⟩
  exact hbacks.steps? count (segment.span_within range).2

/-- Entries whose keys are in no order, one of them twice. -/
def scrambled : List Entry := [.put [9] [], .tombstone [2], .put [9] [4]]

/-- A directory with the files that the layout makes of them. -/
def scrambledFiles : Snapshot where
  names := ⟨[(FileName.segment .data 3, .file 0), (FileName.segment .index 3, .file 1)]⟩
  contents := ⟨[Layout.data scrambled, Layout.index scrambled]⟩

/-- Two comparisons are enough for three entries. The tombstone in the middle is found; the key on either
side of it is found past it, and not before. -/
theorem opened_reads_inside_scrambled :
    ∃ segment after, (Segment.load 3 none false).run.run (.ofSnapshot scrambledFiles) = (.ok segment, after) ∧
      ∃ data index,
        find? ⟨data, index⟩ 2 [2] = some (some (.tombstone [2])) ∧
        find? ⟨data, index⟩ 2 [9] = some (some (.put [9] [4])) ∧
        cursor? ⟨data, index⟩ 2 ⟨some [9], none⟩ = some ⟨2, 3⟩ ∧
        steps? ⟨data, index⟩ 2 ⟨2, 3⟩ = some ([some (.put [9] [4]), none], ⟨3, 3⟩) := by
  let segment : Segment := ⟨3, Layout.data scrambled, Layout.slotsOf scrambled, none⟩
  have hdata : scrambledFiles.holding (FileName.segment .data 3) = .file (Layout.data scrambled) := by
    decide +kernel
  have hindex : scrambledFiles.holding (FileName.segment .index 3) = .file (Layout.index scrambled) := by
    decide +kernel
  have hopen : (Segment.load 3 none false).run.run (.ofSnapshot scrambledFiles) =
      (.ok segment, .ofSnapshot scrambledFiles) := by
    have hplain := Disk.plain_ofSnapshot scrambledFiles
    refine (Segment.load_eq_ok (fun _ => hplain.fits _) ⟨hdata, hindex⟩).2 ⟨?_, rfl⟩
    rw [Segment.ofFiles, Layout.checkIndex_index (by decide)]
    rfl
  obtain ⟨data, index, -, -, hlookups, hsteps, -, -⟩ := opened_reads_inside hopen
  obtain ⟨hfound, hcursors⟩ := hlookups 2 (by decide)
  have hcursor : Cursor.ofRange segment ⟨some [9], none⟩ = ⟨2, 3⟩ := by decide +kernel
  have hrange := hcursors ⟨some [9], none⟩
  have hread := hsteps ⟨some [9], none⟩ 2
  rw [hcursor] at hrange hread
  refine ⟨segment, _, hopen, data, index, ?_, ?_, hrange, ?_⟩
  · rw [hfound]
    decide +kernel
  · rw [hfound]
    decide +kernel
  · rw [hread]
    decide +kernel

end Guarded

end LsmTree
