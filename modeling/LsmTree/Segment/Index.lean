import LsmTree.Error
import LsmTree.Segment.Layout

/-!
# Checking an index

An index is accepted if its length fits an odd count of slots, its first offset is zero, no offset is
below the one before it, only key ends are marked as tombstones, no tombstone has octets of a value,
and the last offset is the length of the data file. The faults are looked for in the order of the file.
-/

namespace LsmTree.Layout

/-- Checks the slots from an entry on, two slots to the entry, and returns the last offset. `previous`
is the offset before them. -/
def checkEntries : (entry : Nat) → (previous : Nat) → List UInt64 → Except SegmentFault Nat
  | entry, previous, keyEnd :: valueEnd :: rest =>
    let slot := 2 * entry + 1
    if offset keyEnd < previous then .error (.decreasing slot (offset keyEnd) previous)
    else if isFlagged keyEnd ∧ valueEnd.toNat ≠ offset keyEnd then .error (.valuedTombstone entry)
    else if isFlagged valueEnd then .error (.strayFlag (slot + 1))
    else if offset valueEnd < offset keyEnd then
      .error (.decreasing (slot + 1) (offset valueEnd) (offset keyEnd))
    else checkEntries (entry + 1) (offset valueEnd) rest
  | _, previous, _ => .ok previous

/-- Checks an index against the length of the data and returns its slots. -/
def checkIndex (index : Bytes) (dataLen : Nat) : Except SegmentFault (List UInt64) :=
  if index.length % 8 ≠ 0 then .error (.raggedIndex index.length)
  else
    let slots := Layout.slots index
    if slots.length % 2 = 0 then .error (.unpairedIndex slots.length)
    else if slots.head? ≠ some 0 then .error .nonzeroStart
    else
      match checkEntries 0 0 slots.tail with
      | .error fault => .error fault
      | .ok last => if last ≠ dataLen then .error (.dataLength last dataLen) else .ok slots

end LsmTree.Layout
