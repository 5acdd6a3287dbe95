import LsmTree.Proofs.SegmentSearch

/-!
# Reading a segment back

The two files that the layout makes of a list of entries are accepted by the check of an index, and the
segment they make has these entries, as long as the data is short enough for its offsets:

* **`slots_index`** — the index file reads back into the slots it was made of;
* **`checkIndex_index`** — the index is accepted, **`length_lt_of_checkIndex`** — and only if the data
  is short enough;
* **`entries_ofEntries`** — each entry is cut out of the data where it was put;
* **`ofFiles_recorded`** — and opens as the segment that was recorded, verified or not.
-/

namespace LsmTree

namespace Layout

/-! ## Slots -/

/-- The slots after the first one, if the first key starts at `start`. -/
def slotsFrom (start : Nat) : List Entry → List UInt64
  | [] => []
  | entry :: rest =>
    boundary (start + entry.key.length) entry.isTombstone ::
      UInt64.ofNat (start + entry.byteSize) :: slotsFrom (start + entry.byteSize) rest

/-- The slots of a list of entries. -/
def slotsOf (entries : List Entry) : List UInt64 := 0 :: slotsFrom 0 entries

theorem length_slotsFrom (start : Nat) (entries : List Entry) :
    (slotsFrom start entries).length = 2 * entries.length := by
  induction entries generalizing start with
  | nil => rfl
  | cons entry rest ih =>
    simp only [slotsFrom, List.length_cons, ih]
    omega

theorem length_slotsOf (entries : List Entry) : (slotsOf entries).length = 2 * entries.length + 1 := by
  rw [slotsOf, List.length_cons, length_slotsFrom]

@[simp] theorem data_nil : data [] = [] := rfl

@[simp] theorem data_cons (entry : Entry) (rest : List Entry) :
    data (entry :: rest) = entryBytes entry ++ data rest := rfl

@[simp] theorem data_append (front back : List Entry) :
    data (front ++ back) = data front ++ data back := List.flatMap_append

theorem slots_nil : slots [] = [] := by
  rw [slots]
  rfl

theorem slots_indexFrom (start : Nat) (entries : List Entry) :
    slots (indexFrom start entries) = slotsFrom start entries := by
  induction entries generalizing start with
  | nil => exact slots_nil
  | cons entry rest ih =>
    rw [indexFrom, entrySlots, List.append_assoc, slots_slotBytes_append, slots_slotBytes_append, ih]
    rfl

/-- **An index file reads back into the slots it was made of.** -/
theorem slots_index (entries : List Entry) : slots (index entries) = slotsOf entries := by
  rw [index, slots_slotBytes_append, slots_indexFrom, slotsOf]

theorem indexFrom_append (start : Nat) (front back : List Entry) :
    indexFrom start (front ++ back) =
      indexFrom start front ++ indexFrom (start + (data front).length) back := by
  induction front generalizing start with
  | nil => simp [indexFrom]
  | cons entry rest ih =>
    simp only [List.cons_append, indexFrom, ih, data_cons, List.length_append, length_entryBytes,
      List.append_assoc, Nat.add_assoc]

/-! ## Offsets and marks -/

/-- Offsets are below this: the bit that follows marks a tombstone. -/
def offsetSize : Nat := 9223372036854775808

theorem toNat_ofNat {stop : Nat} (h : stop < offsetSize) : (UInt64.ofNat stop).toNat = stop := by
  have hsize : offsetSize = 2 ^ 63 := by decide
  rw [UInt64.toNat_ofNat']
  omega

theorem offset_ofNat {stop : Nat} (h : stop < offsetSize) : offset (UInt64.ofNat stop) = stop := by
  have hmask : offsetMask.toNat = 2 ^ 63 - 1 := by decide
  rw [offset, UInt64.toNat_and, hmask, Nat.and_two_pow_sub_one_eq_mod, toNat_ofNat h]
  exact Nat.mod_eq_of_lt h

theorem offset_lt (slot : UInt64) : offset slot < offsetSize := by
  have hmask : offsetMask.toNat = 2 ^ 63 - 1 := by decide
  rw [offset, UInt64.toNat_and, hmask, Nat.and_two_pow_sub_one_eq_mod]
  exact Nat.mod_lt _ (by decide)

theorem toNat_boundary {stop : Nat} (h : stop < offsetSize) (isTombstone : Bool) :
    (boundary stop isTombstone).toNat = stop + if isTombstone then offsetSize else 0 := by
  have hsize : offsetSize = 2 ^ 63 := by decide
  rw [hsize] at h ⊢
  have hstop : stop % 2 ^ 64 = stop := Nat.mod_eq_of_lt (by omega)
  cases isTombstone with
  | false => rw [boundary, if_neg (by simp), UInt64.toNat_ofNat', hstop, if_neg (by simp), Nat.add_zero]
  | true =>
    have hflag : tombstoneFlag.toNat = 2 ^ 63 := by decide
    have hor : stop ||| 2 ^ 63 = stop + 2 ^ 63 := by
      have hadd := Nat.two_pow_add_eq_or_of_lt h 1
      rw [Nat.mul_one] at hadd
      rw [Nat.or_comm, ← hadd, Nat.add_comm]
    rw [boundary, if_pos rfl, UInt64.toNat_or, hflag, UInt64.toNat_ofNat', hstop, hor, if_pos rfl]

theorem offset_boundary {stop : Nat} (h : stop < offsetSize) (isTombstone : Bool) :
    offset (boundary stop isTombstone) = stop := by
  have hsize : offsetSize = 2 ^ 63 := by decide
  have hmask : offsetMask.toNat = 2 ^ 63 - 1 := by decide
  rw [offset, UInt64.toNat_and, hmask, Nat.and_two_pow_sub_one_eq_mod, toNat_boundary h]
  cases isTombstone with
  | false => simp only [Bool.false_eq_true, if_false]; omega
  | true => simp only [if_true]; omega

theorem isFlagged_iff (slot : UInt64) : isFlagged slot = decide (offsetSize ≤ slot.toNat) := by
  have hsize : offsetSize = 2 ^ 63 := by decide
  have hflag : tombstoneFlag.toNat = 2 ^ 63 := by decide
  have hslot := slot.toNat_lt
  have hzero : slot &&& tombstoneFlag = 0 ↔ slot.toNat &&& 2 ^ 63 = 0 := by
    rw [← UInt64.toNat_inj, UInt64.toNat_and, hflag]
    rfl
  have hbit : slot.toNat.testBit 63 = decide (offsetSize ≤ slot.toNat) := by
    rw [Nat.testBit_eq_decide_div_mod_eq]
    congr 1
    apply propext
    omega
  rw [isFlagged, ← hbit]
  by_cases hb : slot.toNat.testBit 63 = true
  · rw [hb, decide_eq_true_iff]
    intro h
    have hand := congrArg (fun n : Nat => n.testBit 63) (hzero.1 h)
    simp only [Nat.testBit_and, hb, Nat.testBit_two_pow_self, Nat.zero_testBit] at hand
    cases hand
  · rw [Bool.not_eq_true] at hb
    rw [hb, decide_eq_false_iff_not, Decidable.not_not, hzero]
    apply Nat.eq_of_testBit_eq
    intro i
    rw [Nat.testBit_and, Nat.testBit_two_pow]
    by_cases hi : 63 = i
    · subst hi
      simp [hb]
    · simp [hi]

theorem isFlagged_boundary {stop : Nat} (h : stop < offsetSize) (isTombstone : Bool) :
    isFlagged (boundary stop isTombstone) = isTombstone := by
  rw [isFlagged_iff, toNat_boundary h]
  cases isTombstone with
  | false => simp; omega
  | true => simp

theorem isFlagged_ofNat {stop : Nat} (h : stop < offsetSize) : isFlagged (UInt64.ofNat stop) = false := by
  rw [isFlagged_iff, toNat_ofNat h, decide_eq_false_iff_not]
  exact Nat.not_le_of_gt h

/-! ## The check of an index -/

theorem checkEntries_slotsFrom (entries : List Entry) (position start : Nat)
    (h : start + (data entries).length < offsetSize) :
    checkEntries position start (slotsFrom start entries) = .ok (start + (data entries).length) := by
  induction entries generalizing position start with
  | nil => rfl
  | cons entry rest ih =>
    have hlen : (data (entry :: rest)).length = entry.byteSize + (data rest).length := by
      simp [length_entryBytes]
    have hsize : entry.byteSize = entry.key.length + entry.valueBytes.length := rfl
    rw [hlen] at h ⊢
    have hkey : start + entry.key.length < offsetSize := by omega
    have hvalue : start + entry.byteSize < offsetSize := by omega
    have hmod := toNat_ofNat hvalue
    rw [slotsFrom, checkEntries]
    simp only [offset_boundary hkey, isFlagged_boundary hkey, offset_ofNat hvalue, isFlagged_ofNat hvalue,
      hmod]
    rw [if_neg (by omega), if_neg ?valued, if_neg (by simp), if_neg (by omega), ih _ _ (by omega),
      Nat.add_assoc]
    case valued =>
      rintro ⟨htombstone, hne⟩
      have hnone : entry.valueBytes.length = 0 := by
        rw [Entry.valueBytes, Option.isNone_iff_eq_none.1 htombstone]
        rfl
      omega

theorem checkEntries_lt {slots : List UInt64} {position previous last : Nat} (hprevious : previous < offsetSize)
    (h : checkEntries position previous slots = .ok last) : last < offsetSize := by
  fun_induction checkEntries position previous slots with
  | case1 => cases h
  | case2 => cases h
  | case3 => cases h
  | case4 => cases h
  | case5 position previous keyEnd valueEnd rest slot _ _ _ ih => exact ih (offset_lt _) h
  | case6 =>
    cases h
    exact hprevious

/-- **The index that the layout makes is accepted**, if the data is short enough. -/
theorem checkIndex_index {entries : List Entry} (h : (data entries).length < offsetSize) :
    checkIndex (index entries) (data entries).length = .ok (slotsOf entries) := by
  have hchecked := checkEntries_slotsFrom entries 0 0 (by simpa using h)
  rw [Nat.zero_add] at hchecked
  unfold checkIndex
  simp only [length_index, slots_index, length_slotsOf]
  rw [if_neg (by omega), if_neg (by omega), if_neg (by simp [slotsOf])]
  simp [slotsOf, hchecked]

/-- What an accepted index is: a slot that is zero, and two for each entry that lead to the end of the
data. -/
theorem of_checkIndex {index : Bytes} {dataLen : Nat} {accepted : List UInt64}
    (h : checkIndex index dataLen = .ok accepted) : accepted = slots index ∧ index.length % 8 = 0 ∧
      ∃ tail, accepted = 0 :: tail ∧ tail.length % 2 = 0 ∧ checkEntries 0 0 tail = .ok dataLen := by
  unfold checkIndex at h
  dsimp only at h
  split at h
  · cases h
  next hfull =>
  split at h
  · cases h
  next hodd =>
  split at h
  · cases h
  next hzero =>
  split at h
  · cases h
  next last hchecked =>
  split at h
  · cases h
  next hlast =>
  obtain rfl := Except.ok.inj h
  obtain ⟨tail, htail⟩ := List.head?_eq_some_iff.1 (Decidable.byContradiction hzero)
  rw [htail, List.length_cons] at hodd
  rw [htail, List.tail_cons] at hchecked
  obtain rfl : last = dataLen := Decidable.byContradiction hlast
  exact ⟨rfl, by omega, tail, htail, by omega, hchecked⟩

/-- No index is accepted for data that is too long. -/
theorem length_lt_of_checkIndex {index : Bytes} {dataLen : Nat} {slots : List UInt64}
    (h : checkIndex index dataLen = .ok slots) : dataLen < offsetSize := by
  obtain ⟨-, -, tail, -, -, hchecked⟩ := of_checkIndex h
  exact checkEntries_lt (by decide) hchecked

/-! ## Entries by position -/

/-- The slot before an entry holds the offset at which its key starts. -/
theorem getElem?_slotsFrom_even (entries : List Entry) (start i : Nat) (h : i ≤ entries.length) :
    (UInt64.ofNat start :: slotsFrom start entries)[2 * i]? =
      some (UInt64.ofNat (start + (data (entries.take i)).length)) := by
  induction entries generalizing start i with
  | nil =>
    obtain rfl : i = 0 := by simpa using h
    simp
  | cons entry rest ih =>
    cases i with
    | zero => simp
    | succ i =>
      have hrest := ih (start + entry.byteSize) i (by simpa using h)
      rw [List.take_succ_cons, data_cons, List.length_append, length_entryBytes, ← Nat.add_assoc, ← hrest]
      rfl

/-- The slot after it holds the offset at which the key ends, with the mark of a tombstone. -/
theorem getElem?_slotsFrom_odd (entries : List Entry) (start i : Nat) (h : i < entries.length) :
    (UInt64.ofNat start :: slotsFrom start entries)[2 * i + 1]? =
      some (boundary (start + (data (entries.take i)).length + entries[i].key.length)
        entries[i].isTombstone) := by
  induction entries generalizing start i with
  | nil => simp at h
  | cons entry rest ih =>
    cases i with
    | zero => simp [slotsFrom]
    | succ i =>
      have hrest := ih (start + entry.byteSize) i (by simpa using h)
      rw [List.take_succ_cons, data_cons, List.length_append, length_entryBytes, ← Nat.add_assoc,
        List.getElem_cons_succ, ← hrest]
      rfl

theorem slice_append (front middle back : Bytes) :
    slice (front ++ (middle ++ back)) front.length (front.length + middle.length) = middle := by
  simp [slice]

end Layout

namespace Segment

open Layout (index slotsOf)

/-- The segment of a generation that the layout makes of a list of entries. -/
def ofEntries (generation : UInt64) (entries : List Entry) : Segment where
  generation := generation
  data := Layout.data entries
  slots := slotsOf entries
  dataCrc := some (Layout.data entries).crc32

variable {generation : UInt64} {entries : List Entry}

theorem count_ofEntries : (ofEntries generation entries).count = entries.length := by
  have hlen : (ofEntries generation entries).slots.length = 2 * entries.length + 1 :=
    Layout.length_slotsOf entries
  rw [count, hlen]
  omega

theorem slot_ofEntries_even {i : Nat} (h : i ≤ entries.length) :
    (ofEntries generation entries).slot (2 * i) = UInt64.ofNat (Layout.data (entries.take i)).length := by
  have hslot := Layout.getElem?_slotsFrom_even entries 0 i h
  rw [Nat.zero_add] at hslot
  exact (List.getD_eq_getElem?_getD).trans (congrArg (Option.getD · 0) hslot)

theorem slot_ofEntries_odd {i : Nat} (h : i < entries.length) :
    (ofEntries generation entries).slot (2 * i + 1) =
      Layout.boundary ((Layout.data (entries.take i)).length + entries[i].key.length)
        entries[i].isTombstone := by
  have hslot := Layout.getElem?_slotsFrom_odd entries 0 i h
  rw [Nat.zero_add] at hslot
  exact (List.getD_eq_getElem?_getD).trans (congrArg (Option.getD · 0) hslot)

/-- **Each entry is cut out of the data where it was put.** -/
theorem entryAt_ofEntries (hdata : (Layout.data entries).length < Layout.offsetSize) {i : Nat}
    (h : i < entries.length) :
    (ofEntries generation entries).entryAt i = entries[i] := by
  -- The data falls into what comes before the entry, its key, its value and what comes after it.
  have hsplit : entries = entries.take i ++ entries[i] :: entries.drop (i + 1) := by
    rw [List.getElem_cons_drop, List.take_append_drop]
  have hbytes : Layout.data entries = Layout.data (entries.take i) ++
      (entries[i].key ++ (entries[i].valueBytes ++ Layout.data (entries.drop (i + 1)))) := by
    have := congrArg Layout.data hsplit
    rwa [Layout.data_append, Layout.data_cons, Layout.entryBytes, List.append_assoc] at this
  have hlen := congrArg List.length hbytes
  simp only [List.length_append] at hlen
  have hnext : (Layout.data (entries.take (i + 1))).length =
      (Layout.data (entries.take i)).length + (entries[i].key.length + entries[i].valueBytes.length) := by
    rw [List.take_add_one, List.getElem?_eq_getElem h, Layout.data_append, List.length_append]
    simp [Layout.length_entryBytes, Entry.byteSize]
  have hstart : ((ofEntries generation entries).slot (2 * i)).toNat = (Layout.data (entries.take i)).length := by
    rw [slot_ofEntries_even (Nat.le_of_lt h), Layout.toNat_ofNat (by omega)]
  have hkeyEnd : Layout.offset ((ofEntries generation entries).slot (2 * i + 1)) =
      (Layout.data (entries.take i)).length + entries[i].key.length := by
    rw [slot_ofEntries_odd h, Layout.offset_boundary (by omega)]
  have hvalueEnd : ((ofEntries generation entries).slot (2 * i + 2)).toNat =
      (Layout.data (entries.take i)).length + entries[i].key.length + entries[i].valueBytes.length := by
    rw [show 2 * i + 2 = 2 * (i + 1) from rfl, slot_ofEntries_even (show i + 1 ≤ entries.length from h),
      Layout.toNat_ofNat (by omega), hnext, Nat.add_assoc]
  have hflag : Layout.isFlagged ((ofEntries generation entries).slot (2 * i + 1)) =
      entries[i].isTombstone := by
    rw [slot_ofEntries_odd h, Layout.isFlagged_boundary (by omega)]
  have hkey : (ofEntries generation entries).keyAt i = entries[i].key := by
    rw [keyAt, keyBounds, hstart, hkeyEnd]
    exact (congrArg (Layout.slice · _ _) hbytes).trans (Layout.slice_append _ _ _)
  have hvalue : (ofEntries generation entries).valueAt i = entries[i].valueBytes := by
    rw [valueAt, keyBounds, hkeyEnd, hvalueEnd, ← List.length_append]
    refine (congrArg (Layout.slice · _ _) hbytes).trans ?_
    rw [← List.append_assoc]
    exact Layout.slice_append _ _ _
  rw [entryAt, hflag, hkey, hvalue]
  cases hentry : entries[i] with
  | mk key value => cases value <;> rfl

/-- **A segment has the entries that it was made of.** -/
theorem entries_ofEntries (hdata : (Layout.data entries).length < Layout.offsetSize) :
    (ofEntries generation entries).entries = entries := by
  apply List.ext_getElem
  · rw [length_entries, count_ofEntries]
  · intro i hi hi'
    rw [getElem_entries, entryAt_ofEntries hdata hi']

/-! ## Opening -/

theorem info_ofEntries : (ofEntries generation entries).info =
    ⟨generation, .ofNat entries.length, .ofNat (Layout.data entries).length, .ofNat (index entries).length,
      some (Layout.data entries).crc32⟩ := by
  rw [info, count_ofEntries, Layout.length_index]
  simp only [ofEntries, Layout.length_slotsOf]

theorem disorder?_eq_none {segment : Segment} (hasc : Ascending segment.entries) :
    segment.disorder? = none := by
  rw [disorder?, List.findSome?_eq_none_iff]
  intro i hi
  have hlt := keyAt_lt hasc (Nat.lt_succ_self i) (by
    have := List.mem_range.1 hi
    omega)
  simp [hlt]

theorem verify_ofEntries (hasc : Ascending entries) (hdata : (Layout.data entries).length < Layout.offsetSize) :
    (ofEntries generation entries).verify = .ok (ofEntries generation entries) := by
  have hsame : ∀ crc : UInt32, (some crc).filter (fun recorded => recorded ≠ crc) = none := by
    intro crc
    simp [Option.filter]
  have hcrc : (ofEntries generation entries).dataCrc.filter
      (fun recorded => recorded ≠ (ofEntries generation entries).data.crc32) = none := hsame _
  have horder : (ofEntries generation entries).disorder? = none :=
    disorder?_eq_none (by rw [entries_ofEntries hdata]; exact hasc)
  unfold verify
  dsimp only
  rw [hcrc, horder]
  rfl

theorem ofFiles_layout (hdata : (Layout.data entries).length < Layout.offsetSize)
    (recorded : Option SegmentMeta) (verified : Bool) :
    ofFiles generation recorded verified (Layout.data entries) (index entries) = (do
      let segment := { ofEntries generation entries with dataCrc := recorded.bind SegmentMeta.dataCrc }
      match recorded with
      | some recorded => segment.checkRecorded recorded
      | none => pure ()
      if verified then segment.verify else pure segment) := by
  rw [ofFiles, Layout.checkIndex_index hdata]
  rfl

/-- **A segment opens as what was recorded of it**, whether or not it is verified. -/
theorem ofFiles_recorded (hasc : Ascending entries)
    (hdata : (Layout.data entries).length < Layout.offsetSize) (verified : Bool) :
    ofFiles generation (some (ofEntries generation entries).info) verified (Layout.data entries)
      (index entries) = .ok (ofEntries generation entries) := by
  have hrecorded : (ofEntries generation entries).checkRecorded (ofEntries generation entries).info =
      .ok () := if_neg fun h => h rfl
  have hopen : ofFiles generation (some (ofEntries generation entries).info) verified
      (Layout.data entries) (index entries) = (do
        (ofEntries generation entries).checkRecorded (ofEntries generation entries).info
        if verified then (ofEntries generation entries).verify
        else pure (ofEntries generation entries)) := ofFiles_layout hdata _ verified
  rw [hopen, hrecorded]
  cases verified with
  | false => rfl
  | true => exact verify_ofEntries hasc hdata

/-- What it takes to open two files as a segment: an index that is accepted, a record that tells the
truth, and a verification that passes. -/
theorem ofFiles_eq_ok {recorded : Option SegmentMeta} {verified : Bool} {data index : Bytes}
    {segment : Segment} (h : ofFiles generation recorded verified data index = .ok segment) :
    ∃ slots, Layout.checkIndex index data.length = .ok slots ∧
      (if verified then verify ⟨generation, data, slots, recorded.bind SegmentMeta.dataCrc⟩
        else .ok ⟨generation, data, slots, recorded.bind SegmentMeta.dataCrc⟩) = .ok segment := by
  cases hindex : Layout.checkIndex index data.length with
  | error fault =>
    rw [ofFiles, hindex] at h
    cases h
  | ok slots =>
    refine ⟨slots, rfl, ?_⟩
    rw [ofFiles, hindex] at h
    cases recorded with
    | none => exact h
    | some recorded =>
      change ((⟨generation, data, slots, recorded.dataCrc⟩ : Segment).checkRecorded recorded >>= _) = _ at h
      cases hrecorded : (⟨generation, data, slots, recorded.dataCrc⟩ : Segment).checkRecorded recorded with
      | error fault =>
        rw [hrecorded] at h
        cases h
      | ok _ =>
        rw [hrecorded] at h
        exact h

theorem length_lt_of_ofFiles {recorded : Option SegmentMeta} {verified : Bool} {data index : Bytes}
    {segment : Segment} (h : ofFiles generation recorded verified data index = .ok segment) :
    data.length < Layout.offsetSize := by
  obtain ⟨slots, hchecked, -⟩ := ofFiles_eq_ok h
  exact Layout.length_lt_of_checkIndex hchecked

/-- **A segment that opened once opens again as the same,** whether or not it is verified: if its files
are those of a list of entries, it is the segment of these entries. -/
theorem ofFiles_info (hasc : Ascending entries) {segment : Segment}
    (h : ofFiles generation (some (ofEntries generation entries).info) false (Layout.data entries)
      (index entries) = .ok segment) :
    segment = ofEntries generation entries ∧ (Layout.data entries).length < Layout.offsetSize ∧
      ∀ verified, ofFiles generation (some (ofEntries generation entries).info) verified
        (Layout.data entries) (index entries) = .ok segment := by
  have hdata := length_lt_of_ofFiles h
  have hopen : ∀ verified, ofFiles generation (some (ofEntries generation entries).info) verified
      (Layout.data entries) (index entries) = .ok (ofEntries generation entries) :=
    ofFiles_recorded hasc hdata
  have hsame : segment = ofEntries generation entries :=
    Except.ok.inj (h.symm.trans (hopen false))
  exact ⟨hsame, hdata, fun verified => hsame ▸ hopen verified⟩

end Segment

end LsmTree
