import LsmTree.Bytes

/-!
# Entries

A key with the value written for it, or with the mark that it was deleted. An empty value is a live
value, so a deletion is told apart by the absence of a value, never by its length.
-/

namespace LsmTree

/-- A version of a key: its value, or none for a tombstone. -/
structure Entry where
  key : Bytes
  value : Option Bytes
  deriving DecidableEq, Repr

namespace Entry

/-- A live pair of key and value. -/
def put (key value : Bytes) : Entry := ⟨key, some value⟩

/-- The mark that a key was deleted. -/
def tombstone (key : Bytes) : Entry := ⟨key, none⟩

/-- Whether the entry deletes its key. -/
def isTombstone (entry : Entry) : Bool := entry.value.isNone

/-- The octets of the value; a tombstone has none. -/
def valueBytes (entry : Entry) : Bytes := entry.value.getD []

/-- The octets that key and value take together. -/
def byteSize (entry : Entry) : Nat := entry.key.length + entry.valueBytes.length

end Entry

/-- The keys of the entries come in strictly ascending order. -/
def Ascending (entries : List Entry) : Prop :=
  entries.Pairwise (fun a b => a.key < b.key)

end LsmTree
