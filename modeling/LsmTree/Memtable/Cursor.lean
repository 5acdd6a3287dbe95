import LsmTree.Memtable
import LsmTree.Reader

/-!
# Cursors over a memtable

A cursor holds no entries. Each step looks the table up afresh for the first key past the one yielded
last, so it sees what was written ahead of it in the meantime. Once a step has found nothing in the
range, the cursor stays finished.

* **`Memtable.Cursor.next`** is a step;
* **`Memtable.cursorReader`** reads a table that is not written meanwhile.
-/

namespace LsmTree.Memtable

/-- A place in the key order, kept across changes of the table. -/
structure Cursor where
  range : KeyRange
  /-- The key yielded last. -/
  last : Option Bytes
  finished : Bool

namespace Cursor

/-- The cursor before the first key of a range. -/
def ofRange (range : KeyRange) : Cursor := ⟨range, none, range.isEmpty⟩

/-- Whether a key is ahead of the cursor. -/
def isAhead (cursor : Cursor) (key : Bytes) : Bool :=
  match cursor.last with
  | some last => last < key
  | none => cursor.range.startsBefore key

/-- The first entry ahead of the cursor, if the range reaches that far. -/
def next (table : Memtable) (cursor : Cursor) : Option Entry × Cursor :=
  if cursor.finished then (none, cursor)
  else
    match table.entries.find? fun entry => cursor.isAhead entry.key with
    | none => (none, { cursor with finished := true })
    | some entry =>
      if cursor.range.endsAfter entry.key then
        (some entry, { cursor with last := some entry.key })
      else (none, { cursor with finished := true })

/-- The entries ahead of the cursor, whether or not the range reaches them. -/
def remaining (table : Memtable) (cursor : Cursor) : Nat :=
  table.entries.countP fun entry => cursor.isAhead entry.key

/-- A key ahead of the cursor after a step was ahead of it before. -/
theorem isAhead_of_lt {cursor : Cursor} {key later : Bytes} (hkey : cursor.isAhead key = true)
    (hlt : key < later) : cursor.isAhead later = true := by
  unfold isAhead at hkey ⊢
  split at hkey
  · exact decide_eq_true (Bytes.lt_trans (of_decide_eq_true hkey) hlt)
  · unfold KeyRange.startsBefore at hkey ⊢
    split at hkey
    · rfl
    · have hkey := of_decide_eq_true hkey
      exact decide_eq_true fun h => hkey (Bytes.lt_trans hlt h)

theorem countP_lt {α : Type} {p q : α → Bool} {xs : List α} {x : α} (hx : x ∈ xs)
    (hp : p x = true) (hq : q x = false) (hle : ∀ y, q y = true → p y = true) :
    xs.countP q < xs.countP p := by
  induction xs with
  | nil => simp at hx
  | cons head rest ih =>
    have hrest : rest.countP q ≤ rest.countP p := List.countP_mono_left fun y _ => hle y
    rcases List.mem_cons.1 hx with rfl | hx
    · simp [hp, hq]
      omega
    · have := ih hx
      have := hle head
      by_cases h : q head = true
      · simp [h, hle head h]
        omega
      · simp only [List.countP_cons, h]
        simp
        omega

theorem remaining_next {table : Memtable} {cursor : Cursor} {entry : Entry}
    (h : (cursor.next table).1 = some entry) :
    remaining table (cursor.next table).2 < remaining table cursor := by
  unfold next at h ⊢
  split at h
  · simp at h
  · next hfinished =>
    rw [if_neg hfinished]
    split at h
    · simp at h
    · next found hfound =>
      split at h
      · next hend =>
        have hahead := List.find?_some hfound
        simp only [hend, if_true]
        refine countP_lt (List.mem_of_find?_eq_some hfound) hahead ?_ fun y hy => ?_
        · exact decide_eq_false (Bytes.lt_irrefl _)
        · exact isAhead_of_lt hahead (of_decide_eq_true hy)
      · simp at h

end Cursor

/-- Reads a table through a cursor, as long as nothing is written. -/
def cursorReader (table : Memtable) : Reader Cursor where
  next := Cursor.next table
  remaining := Cursor.remaining table
  remaining_next := Cursor.remaining_next

/-- The entries of a table whose keys lie in a range. -/
def rangeEntries (table : Memtable) (range : KeyRange) : List Entry :=
  (table.cursorReader.drain (Cursor.ofRange range)).1

end LsmTree.Memtable
