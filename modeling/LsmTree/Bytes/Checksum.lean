import LsmTree.Bytes

/-!
# CRC-32

The cyclic redundancy check with the reflected polynomial `0xEDB88320`: the register starts with all
bits set, takes one octet at a time, and is inverted at the end.

* **`Checksum.update_append`** — a string may be absorbed in pieces, so a writer can keep a running
  checksum while a reader hashes the whole file.
-/

namespace LsmTree

/-- A running CRC-32: the register after the octets absorbed so far. -/
structure Checksum where
  register : UInt32

namespace Checksum

/-- The register before the first octet. -/
def start : Checksum := ⟨0xFFFFFFFF⟩

/-- The register after one bit has left it. -/
def shift (register : UInt32) : UInt32 :=
  if register &&& 1 = 0 then register >>> 1 else (register >>> 1) ^^^ 0xEDB88320

/-- The register after one octet. -/
def absorb (register : UInt32) (octet : UInt8) : UInt32 :=
  Nat.repeat shift 8 (register ^^^ octet.toUInt32)

/-- The checksum after some more octets. -/
def update (checksum : Checksum) (bytes : Bytes) : Checksum :=
  ⟨bytes.foldl absorb checksum.register⟩

/-- The CRC-32 of the octets absorbed. -/
def value (checksum : Checksum) : UInt32 :=
  checksum.register ^^^ 0xFFFFFFFF

theorem update_append (checksum : Checksum) (a b : Bytes) :
    checksum.update (a ++ b) = (checksum.update a).update b := by
  simp [update, List.foldl_append]

@[simp] theorem update_nil (checksum : Checksum) : checksum.update [] = checksum := rfl

end Checksum

/-- The CRC-32 of a whole byte string. -/
def Bytes.crc32 (bytes : Bytes) : UInt32 :=
  (Checksum.start.update bytes).value

end LsmTree
