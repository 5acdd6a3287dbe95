import LsmTree.Entry
import LsmTree.KeyRange

/-!
# The memtable

Recent writes, one entry per key, in strictly ascending key order. Inserting an entry replaces the
older version of its key. The size is kept up to date from one insertion to the next: the octets of the
new version are added, those of the version it replaces are taken off again.

* **`Memtable.entries`** is the view of a table: `get?` looks it up, `write` inserts into it;
* **`ascending_insertEntry`** — insertion keeps the order;
* **`heldSize_insertEntry`** — what it does to the octets held, so that **`Memtable.newSizes`**, which
  never adds them all up, keeps the size exact.
-/

namespace LsmTree

/-- Puts an entry into its place in an ascending list, over the entry of the same key if there is one. -/
def insertEntry (entry : Entry) : List Entry → List Entry
  | [] => [entry]
  | head :: rest =>
    if entry.key < head.key then entry :: head :: rest
    else if head.key < entry.key then head :: insertEntry entry rest
    else entry :: rest

theorem mem_insertEntry {entry x : Entry} {entries : List Entry} (h : x ∈ insertEntry entry entries) :
    x = entry ∨ x ∈ entries := by
  induction entries with
  | nil => simpa [insertEntry] using h
  | cons head rest ih =>
    simp only [insertEntry] at h
    split at h
    · simpa using h
    · split at h
      · rcases List.mem_cons.1 h with rfl | h
        · simp
        · rcases ih h with h | h <;> simp [h]
      · rcases List.mem_cons.1 h with rfl | h <;> simp [*]

theorem ascending_insertEntry {entry : Entry} {entries : List Entry} (h : Ascending entries) :
    Ascending (insertEntry entry entries) := by
  induction entries with
  | nil => simp [insertEntry, Ascending]
  | cons head rest ih =>
    obtain ⟨hhead, hrest⟩ := List.pairwise_cons.1 h
    simp only [insertEntry]
    split
    · next hlt =>
      refine List.pairwise_cons.2 ⟨fun x hx => ?_, h⟩
      rcases List.mem_cons.1 hx with rfl | hx
      · exact hlt
      · exact Bytes.lt_trans hlt (hhead x hx)
    · next hnlt =>
      split
      · next hgt =>
        refine List.pairwise_cons.2 ⟨fun x hx => ?_, ih hrest⟩
        rcases mem_insertEntry hx with rfl | hx
        · exact hgt
        · exact hhead x hx
      · next hngt =>
        have hkey : entry.key = head.key := Bytes.eq_of_not_lt hnlt hngt
        exact List.pairwise_cons.2 ⟨fun x hx => hkey ▸ hhead x hx, hrest⟩

/-- The octets that entries take together. -/
def heldSize : List Entry → Nat
  | [] => 0
  | entry :: rest => entry.byteSize + heldSize rest

@[simp] theorem heldSize_cons (entry : Entry) (entries : List Entry) :
    heldSize (entry :: entries) = entry.byteSize + heldSize entries := rfl

/-- The octets of the version of a key, none if there is no version. -/
def versionSize (key : Bytes) (entries : List Entry) : Nat :=
  match entries.find? fun entry => entry.key = key with
  | none => 0
  | some old => old.byteSize

@[simp] theorem versionSize_cons_self (entry : Entry) (entries : List Entry) :
    versionSize entry.key (entry :: entries) = entry.byteSize := by
  simp [versionSize]

theorem versionSize_cons_of_ne {entry : Entry} {key : Bytes} (h : entry.key ≠ key)
    (entries : List Entry) : versionSize key (entry :: entries) = versionSize key entries := by
  simp [versionSize, h]

theorem versionSize_eq_zero {key : Bytes} {entries : List Entry}
    (h : ∀ entry ∈ entries, key < entry.key) : versionSize key entries = 0 := by
  have hnone : entries.find? (fun entry => entry.key = key) = none := by
    rw [List.find?_eq_none]
    intro entry hentry heq
    exact Bytes.lt_irrefl key ((of_decide_eq_true heq) ▸ h entry hentry)
  rw [versionSize, hnone]

/-- An insertion adds the octets of the entry and drops those of the version it replaces. -/
theorem heldSize_insertEntry (entry : Entry) {entries : List Entry} (h : Ascending entries) :
    heldSize (insertEntry entry entries) + versionSize entry.key entries =
      heldSize entries + entry.byteSize := by
  induction entries with
  | nil => simp [insertEntry, heldSize, versionSize]
  | cons head rest ih =>
    obtain ⟨hhead, hrest⟩ := List.pairwise_cons.1 h
    simp only [insertEntry]
    split
    · next hlt =>
      -- The entry goes before everything, so no version of its key is in the list.
      have habsent : versionSize entry.key (head :: rest) = 0 := by
        apply versionSize_eq_zero
        intro later hlater
        rcases List.mem_cons.1 hlater with rfl | hlater
        · exact hlt
        · exact Bytes.lt_trans hlt (hhead later hlater)
      rw [habsent, heldSize_cons]
      omega
    · next hnlt =>
      split
      · next hgt =>
        have hne : head.key ≠ entry.key := fun heq => Bytes.lt_irrefl entry.key (heq ▸ hgt)
        have hsum := ih hrest
        rw [versionSize_cons_of_ne hne, heldSize_cons, heldSize_cons]
        omega
      · next hngt =>
        have hkey : entry.key = head.key := Bytes.eq_of_not_lt hnlt hngt
        rw [hkey, versionSize_cons_self, heldSize_cons, heldSize_cons]
        omega

/-- A table of recent writes: entries in ascending key order, with the octets they hold. -/
structure Memtable where
  entries : List Entry
  ascending : Ascending entries
  size : Nat
  accounted : size = heldSize entries

namespace Memtable

/-- The table before the first write. -/
def empty : Memtable := ⟨[], List.Pairwise.nil, 0, rfl⟩

instance : Inhabited Memtable := ⟨empty⟩

/-- The entry of a key, a tombstone included. -/
def get? (table : Memtable) (key : Bytes) : Option Entry :=
  table.entries.find? fun entry => entry.key = key

/-- The octets of the version that a write of this key replaces. -/
def replacedSize (table : Memtable) (key : Bytes) : Nat := versionSize key table.entries

/-- The size while a write is under way, when its octets are added and those of the version it replaces
are not yet taken off. -/
def grownSize (table : Memtable) (entry : Entry) : Nat := table.size + entry.byteSize

/-- The size that a write tells, and the one it leaves. Nothing is taken off for a version that has no
octets. Adding comes first, so that the subtractions do not stop at zero too early. -/
def newSizes (table : Memtable) (entry : Entry) : Nat × Nat :=
  let removed := table.replacedSize entry.key
  let grown := table.grownSize entry
  if removed = 0 then (grown, grown)
  else
    let previous := grown
    (previous - removed, grown - removed)

/-- What a write adds is, the replaced version apart, what the entries hold after it. -/
theorem grownSize_eq (table : Memtable) (entry : Entry) :
    table.grownSize entry =
      heldSize (insertEntry entry table.entries) + table.replacedSize entry.key := by
  rw [grownSize, table.accounted]
  exact (heldSize_insertEntry entry table.ascending).symm

theorem newSizes_eq (table : Memtable) (entry : Entry) :
    table.newSizes entry = (heldSize (insertEntry entry table.entries),
      heldSize (insertEntry entry table.entries)) := by
  dsimp only [newSizes]
  rw [grownSize_eq]
  split
  · next hnothing =>
    rw [hnothing, Nat.add_zero]
  · rw [Nat.add_sub_cancel]

/-- Writes an entry over the older version of its key, and tells the new size. -/
def write (table : Memtable) (entry : Entry) : Nat × Memtable :=
  ((table.newSizes entry).1,
    { entries := insertEntry entry table.entries
      ascending := ascending_insertEntry table.ascending
      size := (table.newSizes entry).2
      accounted := by rw [newSizes_eq] })

/-- Writes an entry over the older version of its key. -/
def insert (table : Memtable) (entry : Entry) : Memtable := (table.write entry).2

@[simp] theorem entries_insert (table : Memtable) (entry : Entry) :
    (table.insert entry).entries = insertEntry entry table.entries := rfl

/-- Writes a value, and tells the new size. -/
def put (table : Memtable) (key value : Bytes) : Nat × Memtable := table.write (.put key value)

/-- Writes the mark that a key is deleted, and tells the new size. -/
def delete (table : Memtable) (key : Bytes) : Nat × Memtable := table.write (.tombstone key)

/-- The count of keys, deleted ones included. -/
def count (table : Memtable) : Nat := table.entries.length

/-- Whether nothing was ever written. -/
def isEmpty (table : Memtable) : Bool := table.entries.isEmpty

end Memtable

end LsmTree
