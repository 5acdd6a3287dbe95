import LsmTree.Bytes.Word
import LsmTree.Entry

/-!
# The layout of a segment

A segment is two files. The data file holds keys and values one after the other. The index file holds
`2N + 1` slots of eight octets: a zero, and then for each entry the offset where its key ends and the
offset where its value ends. The highest bit of a key's end marks a tombstone, whose value is empty.

* **`Layout.data`** and **`Layout.index`** are the two files of a list of entries;
* **`Layout.slots`** reads an index file back into its slots.
-/

namespace LsmTree.Layout

/-- The bit of a slot that marks a tombstone. -/
def tombstoneFlag : UInt64 := 0x8000000000000000

/-- The bits of a slot that hold an offset. -/
def offsetMask : UInt64 := 0x7FFFFFFFFFFFFFFF

/-- The offset that a slot holds. -/
def offset (slot : UInt64) : Nat := (slot &&& offsetMask).toNat

/-- Whether a slot marks a tombstone. -/
def isFlagged (slot : UInt64) : Bool := slot &&& tombstoneFlag ≠ 0

/-- The slot at the end of a key. -/
def boundary (stop : Nat) (isTombstone : Bool) : UInt64 :=
  if isTombstone then UInt64.ofNat stop ||| tombstoneFlag else UInt64.ofNat stop

/-- The octets of a slot. -/
def slotBytes (slot : UInt64) : Bytes := Bytes.word 8 slot.toNat

/-- The octets of an entry in the data file. -/
def entryBytes (entry : Entry) : Bytes := entry.key ++ entry.valueBytes

/-- The octets of an entry in the index file, if its key starts at `start`. -/
def entrySlots (start : Nat) (entry : Entry) : Bytes :=
  slotBytes (boundary (start + entry.key.length) entry.isTombstone) ++
    slotBytes (UInt64.ofNat (start + entry.byteSize))

/-- The data file of a list of entries. -/
def data (entries : List Entry) : Bytes := entries.flatMap entryBytes

/-- The slots after the first one, as octets, if the first key starts at `start`. -/
def indexFrom (start : Nat) : List Entry → Bytes
  | [] => []
  | entry :: rest => entrySlots start entry ++ indexFrom (start + entry.byteSize) rest

/-- The index file of a list of entries. -/
def index (entries : List Entry) : Bytes := slotBytes 0 ++ indexFrom 0 entries

/-- The slots of an index file; octets that do not fill a slot are left over. -/
def slots (bytes : Bytes) : List UInt64 :=
  if bytes.length < 8 then []
  else UInt64.ofNat (Bytes.ofWord (bytes.take 8)) :: slots (bytes.drop 8)
termination_by bytes.length
decreasing_by
  simp
  omega

/-- The part of a file between two offsets. -/
def slice (bytes : Bytes) (start stop : Nat) : Bytes := (bytes.drop start).take (stop - start)

theorem length_entryBytes (entry : Entry) : (entryBytes entry).length = entry.byteSize := by
  simp [entryBytes, Entry.byteSize]

theorem length_entrySlots (start : Nat) (entry : Entry) :
    (entrySlots start entry).length = 16 := by
  simp [entrySlots, slotBytes]

theorem length_index (entries : List Entry) : (index entries).length = 8 * (2 * entries.length + 1) := by
  have h : ∀ start, (indexFrom start entries).length = 16 * entries.length := by
    induction entries with
    | nil => intro start; rfl
    | cons entry rest ih =>
      intro start
      simp only [indexFrom, List.length_append, length_entrySlots, ih, List.length_cons]
      omega
  simp only [index, List.length_append, slotBytes, Bytes.length_word, h]
  omega

theorem ofWord_slotBytes (slot : UInt64) : Bytes.ofWord (slotBytes slot) = slot.toNat := by
  rw [slotBytes, Bytes.ofWord_word]
  exact Nat.mod_eq_of_lt (Nat.lt_of_lt_of_le slot.toNat_lt (by decide))

theorem slots_slotBytes_append (slot : UInt64) (rest : Bytes) :
    slots (slotBytes slot ++ rest) = slot :: slots rest := by
  have hlen : (slotBytes slot).length = 8 := Bytes.length_word 8 _
  have htake : (slotBytes slot ++ rest).take 8 = slotBytes slot := by
    rw [List.take_append_of_le_length (Nat.le_of_eq hlen.symm), List.take_of_length_le (Nat.le_of_eq hlen)]
  have hdrop : (slotBytes slot ++ rest).drop 8 = rest := by
    rw [List.drop_append_of_le_length (Nat.le_of_eq hlen.symm), List.drop_of_length_le (Nat.le_of_eq hlen),
      List.nil_append]
  have hlong : ¬ (slotBytes slot ++ rest).length < 8 := by
    rw [List.length_append, hlen]
    omega
  rw [slots, if_neg hlong, htake, hdrop, ofWord_slotBytes, UInt64.ofNat_toNat]

end LsmTree.Layout
