import LsmTree.Proofs.LayoutRoundTrip

/-!
# What files are accepted as a segment

The check of an index refuses every pair of files that the layout does not make, and no other: the slots
it accepts cut the data into entries whose layout is the two files again.

* **`Layout.cut`** — the entries that slots cut out of the data;
* **`Layout.checkIndex_iff`** — an index is accepted exactly if the layout makes it of some entries;
* **`Segment.ofFiles_iff`** — so files open as a segment exactly if they are the layout of its entries,
  and with verification exactly if moreover the keys ascend.
-/

namespace LsmTree

namespace Layout

/-! ## Slots as octets -/

theorem slotBytes_ofWord {bytes : Bytes} (h : bytes.length = 8) :
    slotBytes (UInt64.ofNat (Bytes.ofWord bytes)) = bytes := by
  have hlt := Bytes.ofWord_lt bytes
  have hcapacity : Bytes.capacity 8 = 2 ^ 64 := by decide
  rw [h, hcapacity] at hlt
  rw [slotBytes, UInt64.toNat_ofNat', Nat.mod_eq_of_lt hlt, ← h]
  exact Bytes.word_ofWord bytes

/-- **Octets that fill slots** are those of the slots. -/
theorem flatMap_slots {bytes : Bytes} (h : bytes.length % 8 = 0) :
    (slots bytes).flatMap slotBytes = bytes := by
  fun_induction slots bytes with
  | case1 bytes hshort =>
    have hnone : bytes.length = 0 := by omega
    exact (List.length_eq_zero_iff.1 hnone).symm
  | case2 bytes hlong ih =>
    have htake : (bytes.take 8).length = 8 := by
      rw [List.length_take]
      omega
    have hdrop : (bytes.drop 8).length % 8 = 0 := by
      rw [List.length_drop]
      omega
    rw [List.flatMap_cons, slotBytes_ofWord htake, ih hdrop, List.take_append_drop]

theorem indexFrom_eq_flatMap (start : Nat) (entries : List Entry) :
    indexFrom start entries = (slotsFrom start entries).flatMap slotBytes := by
  induction entries generalizing start with
  | nil => rfl
  | cons entry rest ih =>
    rw [indexFrom, slotsFrom, List.flatMap_cons, List.flatMap_cons, ← ih, entrySlots, List.append_assoc]

theorem index_eq_flatMap (entries : List Entry) :
    index entries = (slotsOf entries).flatMap slotBytes := by
  rw [index, slotsOf, List.flatMap_cons, indexFrom_eq_flatMap]

/-! ## Offsets out of slots -/

theorem offset_eq_mod (slot : UInt64) : offset slot = slot.toNat % offsetSize := by
  have hmask : offsetMask.toNat = 2 ^ 63 - 1 := by decide
  rw [offset, UInt64.toNat_and, hmask, Nat.and_two_pow_sub_one_eq_mod]
  rfl

/-- A slot is known from its offset and its mark. -/
theorem boundary_offset (slot : UInt64) : boundary (offset slot) (isFlagged slot) = slot := by
  have hslot := slot.toNat_lt
  have hsize : offsetSize = 2 ^ 63 := by decide
  rw [← UInt64.toNat_inj, toNat_boundary (offset_lt slot), isFlagged_iff, offset_eq_mod, hsize]
  split
  · next h =>
    have := of_decide_eq_true h
    omega
  · next h =>
    have : ¬ 2 ^ 63 ≤ slot.toNat := fun hle => h (decide_eq_true hle)
    omega

theorem ofNat_offset {slot : UInt64} (h : isFlagged slot = false) : UInt64.ofNat (offset slot) = slot := by
  have hboundary := boundary_offset slot
  rwa [h] at hboundary

/-! ## Slices -/

theorem length_slice {data : Bytes} {start stop : Nat} (h : stop ≤ data.length) :
    (slice data start stop).length = stop - start := by
  rw [slice, List.length_take, List.length_drop]
  omega

theorem slice_append_slice (data : Bytes) {start middle stop : Nat} (hle : start ≤ middle)
    (hle' : middle ≤ stop) : slice data start middle ++ slice data middle stop = slice data start stop := by
  have hdrop : (data.drop start).drop (middle - start) = data.drop middle := by
    rw [List.drop_drop]
    congr 1
    omega
  have htotal : stop - start = (middle - start) + (stop - middle) := by omega
  rw [slice, slice, slice, htotal, List.take_add, hdrop]

theorem slice_all (data : Bytes) : slice data 0 data.length = data := by
  rw [slice, List.drop_zero, Nat.sub_zero, List.take_length]

/-! ## Cutting the data into entries -/

/-- The entry between two offsets, by the slots at the ends of its key and its value. -/
def entryOf (data : Bytes) (start : Nat) (keyEnd valueEnd : UInt64) : Entry where
  key := slice data start (offset keyEnd)
  value := if isFlagged keyEnd then none else some (slice data (offset keyEnd) (offset valueEnd))

/-- The entries that slots, two for each, cut out of the data from an offset on. -/
def cut (data : Bytes) : (start : Nat) → List UInt64 → List Entry
  | start, keyEnd :: valueEnd :: rest =>
    entryOf data start keyEnd valueEnd :: cut data (offset valueEnd) rest
  | _, _ => []

theorem checkEntries_le {slots : List UInt64} {position start last : Nat}
    (h : checkEntries position start slots = .ok last) : start ≤ last := by
  fun_induction checkEntries position start slots with
  | case1 => cases h
  | case2 => cases h
  | case3 => cases h
  | case4 => cases h
  | case5 position start keyEnd valueEnd rest hkey _ _ hvalue ih =>
    have := ih h
    omega
  | case6 =>
    cases h
    exact Nat.le_refl _

/-- The slots of an entry are the two that it was cut out by, if they pass the check: a tombstone's value
ends where its key does, and only a key's end is marked. -/
theorem entryOf_spec {data : Bytes} {start : Nat} {keyEnd valueEnd : UInt64}
    (hkey : ¬ offset keyEnd < start)
    (hvalued : ¬ (isFlagged keyEnd = true ∧ valueEnd.toNat ≠ offset keyEnd))
    (hstray : ¬ isFlagged valueEnd = true) (hvalue : ¬ offset valueEnd < offset keyEnd)
    (hdata : offset valueEnd ≤ data.length) :
    boundary (start + (entryOf data start keyEnd valueEnd).key.length)
        (entryOf data start keyEnd valueEnd).isTombstone = keyEnd ∧
      start + (entryOf data start keyEnd valueEnd).byteSize = offset valueEnd ∧
      entryBytes (entryOf data start keyEnd valueEnd) = slice data start (offset valueEnd) := by
  have hlength : (slice data start (offset keyEnd)).length = offset keyEnd - start :=
    length_slice (by omega)
  have htombstone : (entryOf data start keyEnd valueEnd).isTombstone = isFlagged keyEnd := by
    cases hflag : isFlagged keyEnd <;> simp [entryOf, Entry.isTombstone, hflag]
  have hvalueBytes : (entryOf data start keyEnd valueEnd).valueBytes =
      slice data (offset keyEnd) (offset valueEnd) := by
    cases hflag : isFlagged keyEnd with
    | false => simp [entryOf, Entry.valueBytes, hflag]
    | true =>
      -- The check compares the whole slot with the offset; the slot has no mark, so it is its offset.
      have hends : offset valueEnd = offset keyEnd := by
        have hsame : valueEnd.toNat = offset keyEnd :=
          Decidable.byContradiction fun hne => hvalued ⟨hflag, hne⟩
        rw [← hsame, ← toNat_ofNat (offset_lt valueEnd), ofNat_offset (by simpa using hstray)]
      simp [entryOf, Entry.valueBytes, hflag, hends, slice]
  have hkeyLength : (entryOf data start keyEnd valueEnd).key.length = offset keyEnd - start := hlength
  refine ⟨?_, ?_, ?_⟩
  · rw [hkeyLength, htombstone, show start + (offset keyEnd - start) = offset keyEnd by omega]
    exact boundary_offset keyEnd
  · rw [Entry.byteSize, hkeyLength, hvalueBytes, length_slice hdata]
    omega
  · rw [entryBytes, hvalueBytes]
    exact slice_append_slice data (by omega) (by omega)

/-- **The slots that pass the check** are those of the entries they cut out, and the entries are all of
the data between the first offset and the last one. Induction along the slots. -/
theorem cut_spec {data : Bytes} {slots : List UInt64} {position start last : Nat}
    (h : checkEntries position start slots = .ok last) (heven : slots.length % 2 = 0)
    (hdata : last ≤ data.length) :
    slotsFrom start (cut data start slots) = slots ∧
      Layout.data (cut data start slots) = slice data start last := by
  fun_induction checkEntries position start slots with
  | case1 => cases h
  | case2 => cases h
  | case3 => cases h
  | case4 => cases h
  | case5 position start keyEnd valueEnd rest hkey hvalued hstray hvalue ih =>
    -- Offsets never fall, so those of this entry are within the data as the last one is.
    have hle := checkEntries_le h
    obtain ⟨hboundary, hsize, hbytes⟩ :=
      entryOf_spec hkey hvalued hstray hvalue (Nat.le_trans hle hdata)
    have hrest : rest.length % 2 = 0 := by
      simp only [List.length_cons] at heven
      omega
    obtain ⟨hslots, hcut⟩ := ih h hrest
    rw [cut, slotsFrom, hboundary, hsize, ofNat_offset (by simpa using hstray), hslots, data_cons,
      hbytes, hcut]
    exact ⟨rfl, slice_append_slice data (by omega) hle⟩
  | case6 slots position start hshort =>
    cases h
    cases slots with
    | nil => exact ⟨rfl, by simp [cut, slice]⟩
    | cons keyEnd rest =>
      cases rest with
      | nil => simp at heven -- a slot without its partner
      | cons valueEnd rest => exact absurd rfl (hshort keyEnd valueEnd rest)

/-- **An accepted index** is the one that the layout makes of the entries cut out. -/
theorem layout_of_checkIndex {data index : Bytes} {slots : List UInt64}
    (h : checkIndex index data.length = .ok slots) :
    slotsOf (cut data 0 slots.tail) = slots ∧ Layout.index (cut data 0 slots.tail) = index ∧
      Layout.data (cut data 0 slots.tail) = data := by
  obtain ⟨hslots, hfull, tail, rfl, heven, hchecked⟩ := of_checkIndex h
  obtain ⟨hsame, hcut⟩ := cut_spec hchecked heven (Nat.le_refl _)
  rw [List.tail_cons]
  refine ⟨by rw [slotsOf, hsame], ?_, by rw [hcut, slice_all]⟩
  rw [index_eq_flatMap, slotsOf, hsame, hslots]
  exact flatMap_slots hfull

/-- **An index is accepted exactly if the layout makes it,** with the data, of some entries. -/
theorem checkIndex_iff {data index : Bytes} (hdata : data.length < offsetSize) {slots : List UInt64} :
    checkIndex index data.length = .ok slots ↔
      ∃ entries, Layout.data entries = data ∧ Layout.index entries = index ∧ slotsOf entries = slots := by
  constructor
  · intro h
    obtain ⟨hslots, hindex, hcut⟩ := layout_of_checkIndex h
    exact ⟨_, hcut, hindex, hslots⟩
  · rintro ⟨entries, rfl, rfl, rfl⟩
    exact checkIndex_index hdata

end Layout

namespace Segment

variable {generation : UInt64} {entries : List Entry} {data index : Bytes}

/-! ## Segments without a record -/

/-- The segment that the files of some entries open as if nothing was recorded of it: only a
verification computes its checksum. -/
def unrecorded (generation : UInt64) (verified : Bool) (entries : List Entry) : Segment :=
  { ofEntries generation entries with
    dataCrc := if verified then some (Layout.data entries).crc32 else none }

theorem entries_unrecorded (generation : UInt64) (hdata : (Layout.data entries).length < Layout.offsetSize)
    (verified : Bool) : (unrecorded generation verified entries).entries = entries :=
  -- The checksum is not looked at when entries are cut out.
  show (ofEntries generation entries).entries = entries from entries_ofEntries hdata

/-- The range of all keys yields all entries, in whatever order they are. -/
theorem rangeEntries_all (segment : Segment) : segment.rangeEntries .all = segment.entries := by
  have hspan : Cursor.ofRange segment .all = ⟨0, segment.count⟩ := by
    simp [Cursor.ofRange, span, KeyRange.all]
  have hpending : segment.rangeEntries .all = Cursor.pending segment ⟨0, segment.count⟩ := by
    rw [← hspan]
    exact pending_cursorReader segment _
  rw [hpending, pending_eq_take_drop (Nat.le_refl _), List.drop_zero, Nat.sub_zero,
    ← length_entries, List.take_length]

/-- If no position is told to break the order, the keys ascend. -/
theorem ascending_of_disorder? {segment : Segment} (h : segment.disorder? = none) :
    Ascending segment.entries := by
  rw [disorder?, List.findSome?_eq_none_iff] at h
  have hnext : ∀ i, i + 1 < segment.count → segment.keyAt i < segment.keyAt (i + 1) := by
    intro i hi
    refine Decidable.byContradiction fun hnot => ?_
    simpa [hnot] using h i (List.mem_range.2 (by omega))
  -- Keys next to each other are compared; the order of any two comes from those between them.
  have hlater : ∀ distance i, i + distance + 1 < segment.count →
      segment.keyAt i < segment.keyAt (i + distance + 1) := by
    intro distance
    induction distance with
    | zero => exact hnext
    | succ distance ih =>
      intro i hi
      exact Bytes.lt_trans (ih i (by omega)) (hnext (i + distance + 1) hi)
  rw [Ascending, List.pairwise_iff_getElem]
  intro i j hi hj hij
  rw [getElem_entries, getElem_entries, key_entryAt, key_entryAt]
  rw [length_entries] at hj
  obtain ⟨distance, rfl⟩ : ∃ distance, j = i + distance + 1 := ⟨j - i - 1, by omega⟩
  exact hlater distance i hj

/-- **Verification passes exactly if the keys ascend**, where no checksum was recorded. -/
theorem verify_unrecorded (hdata : (Layout.data entries).length < Layout.offsetSize)
    {segment : Segment} : (unrecorded generation false entries).verify = .ok segment ↔
      Ascending entries ∧ segment = unrecorded generation true entries := by
  have hentries := entries_unrecorded generation hdata false
  -- Without a recorded checksum there is only the order to break.
  have hverify : (unrecorded generation false entries).verify =
      (unrecorded generation false entries).disorder?.elim
        (.ok (unrecorded generation true entries)) fun position => .error (.keyOrder position) := by
    unfold verify
    cases (unrecorded generation false entries).disorder? <;> rfl
  rw [hverify]
  cases horder : (unrecorded generation false entries).disorder? with
  | some position =>
    have hnot : ¬ Ascending entries := by
      intro hasc
      rw [← hentries] at hasc
      rw [disorder?_eq_none hasc] at horder
      cases horder
    simp [hnot]
  | none =>
    have hasc : Ascending entries := hentries ▸ ascending_of_disorder? horder
    simp [hasc, eq_comm]

/-- **Files open as a segment exactly if they are the layout of its entries,** and with verification
exactly if moreover the keys of these ascend. -/
theorem ofFiles_iff (hlength : data.length < Layout.offsetSize) (verified : Bool)
    {segment : Segment} : ofFiles generation none verified data index = .ok segment ↔
      ∃ entries, Layout.data entries = data ∧ Layout.index entries = index ∧
        (verified = true → Ascending entries) ∧ segment = unrecorded generation verified entries := by
  have hlayout : ∀ entries, (Layout.data entries).length < Layout.offsetSize →
      ofFiles generation none verified (Layout.data entries) (Layout.index entries) =
        if verified then (unrecorded generation false entries).verify
        else .ok (unrecorded generation false entries) :=
    fun entries h => ofFiles_layout h none verified
  have hverified : ∀ entries, (Layout.data entries).length < Layout.offsetSize →
      (ofFiles generation none verified (Layout.data entries) (Layout.index entries) = .ok segment ↔
        (verified = true → Ascending entries) ∧ segment = unrecorded generation verified entries) := by
    intro entries h
    rw [hlayout entries h]
    cases verified with
    | false => simp [eq_comm]
    | true => simpa using verify_unrecorded h
  constructor
  · intro h
    obtain ⟨slots, hslots⟩ : ∃ slots, Layout.checkIndex index data.length = .ok slots := by
      cases hchecked : Layout.checkIndex index data.length with
      | error fault =>
        rw [ofFiles, hchecked] at h
        cases h
      | ok slots => exact ⟨slots, rfl⟩
    obtain ⟨entries, rfl, rfl, -⟩ := (Layout.checkIndex_iff hlength).1 hslots
    exact ⟨entries, rfl, rfl, (hverified entries hlength).1 h⟩
  · rintro ⟨entries, rfl, rfl, hsegment⟩
    exact (hverified entries hlength).2 hsegment

end Segment

/-- **Two files are the layout of one list of entries at most.** -/
theorem Layout.eq_of_files {entries other : List Entry} (hlength : (data entries).length < offsetSize)
    (hdata : data other = data entries) (hindex : index other = index entries) : other = entries := by
  have hslots : slotsOf other = slotsOf entries := by
    rw [← slots_index, hindex, slots_index]
  have hsegment : Segment.ofEntries 0 other = Segment.ofEntries 0 entries := by
    rw [Segment.ofEntries, hdata, hslots]
    rfl
  calc other = (Segment.ofEntries 0 other).entries :=
        (Segment.entries_ofEntries (hdata.symm ▸ hlength)).symm
    _ = (Segment.ofEntries 0 entries).entries := by rw [hsegment]
    _ = entries := Segment.entries_ofEntries hlength

end LsmTree
