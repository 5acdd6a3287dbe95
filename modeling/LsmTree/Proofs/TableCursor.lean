import LsmTree.Memtable.Cursor
import LsmTree.Proofs.Lookup
import LsmTree.Proofs.Pending

/-!
# What a cursor over a table yields

A cursor looks the table up afresh at each step, so what it has still to yield is a function of the
table as it is now:

* **`Cursor.pending`** — the entries ahead of a cursor and below the upper bound of its range;
* **`Cursor.next_fst`**, **`Cursor.pending_next`** — a step yields the first of them and leaves the
  others pending;
* **`pending_cursorReader`**, **`rangeEntries_eq_filter`** — while nothing is written, reading to the
  end yields what is pending, and from the start of a range that is what the range holds.
-/

namespace LsmTree.Memtable

theorem endsAfter_of_lt {range : KeyRange} {key later : Bytes} (h : range.endsAfter later = true)
    (hlt : key < later) : range.endsAfter key = true := by
  unfold KeyRange.endsAfter at h ⊢
  split at h
  · rfl
  · exact decide_eq_true (Bytes.lt_trans hlt (of_decide_eq_true h))

namespace Cursor

/-! ## One step -/

/-- The entries that a cursor has still to yield, as the table is now. -/
def pending (table : Memtable) (cursor : Cursor) : List Entry :=
  if cursor.finished then []
  else table.entries.filter fun entry =>
    cursor.isAhead entry.key && cursor.range.endsAfter entry.key

theorem pending_of_finished {table : Memtable} {cursor : Cursor} (h : cursor.finished = true) :
    pending table cursor = [] := if_pos h

/-- Moved past a key, a cursor has only the keys after it ahead. -/
theorem pending_moved (table : Memtable) {cursor : Cursor} (hopen : cursor.finished = false)
    (key : Bytes) :
    pending table { cursor with last := some key } =
      table.entries.filter fun e => decide (key < e.key) && cursor.range.endsAfter e.key := by
  rw [pending, if_neg (by simp [hopen])]
  rfl

/-- The table cut at the first entry ahead: nothing before it is pending, and of what comes after it
only the upper bound decides. -/
theorem pending_of_split {table : Memtable} {cursor : Cursor} {entry : Entry}
    {front back : List Entry} (hopen : cursor.finished = false)
    (hsplit : table.entries = front ++ entry :: back)
    (hfront : ∀ e ∈ front, cursor.isAhead e.key = false) (hahead : cursor.isAhead entry.key = true) :
    pending table cursor =
      (entry :: back).filter fun e => cursor.range.endsAfter e.key := by
  have hasc := table.ascending
  rw [hsplit] at hasc
  obtain ⟨-, hback, -⟩ := List.pairwise_append.1 hasc
  obtain ⟨hlater, -⟩ := List.pairwise_cons.1 hback
  have hfrontOut : front.filter (fun e =>
      cursor.isAhead e.key && cursor.range.endsAfter e.key) = [] := by
    rw [List.filter_eq_nil_iff]
    intro e he
    simp [hfront e he]
  rw [pending, hopen, if_neg (by simp), hsplit, List.filter_append, hfrontOut, List.nil_append]
  refine List.filter_congr fun e he => ?_
  rcases List.mem_cons.1 he with rfl | he
  · rw [hahead, Bool.true_and]
  · rw [isAhead_of_lt hahead (hlater e he), Bool.true_and]

theorem filter_endsAfter_eq_nil {range : KeyRange} {entry : Entry} {back : List Entry}
    (hasc : Ascending (entry :: back)) (h : range.endsAfter entry.key = false) :
    (entry :: back).filter (fun e => range.endsAfter e.key) = [] := by
  rw [List.filter_eq_nil_iff]
  intro e he hin
  rcases List.mem_cons.1 he with rfl | he
  · simp [h] at hin
  · have hlt := (List.pairwise_cons.1 hasc).1 e he
    simp [endsAfter_of_lt hin hlt] at h

/-- **A step yields the first pending entry**, or none when nothing is pending. -/
theorem next_fst (table : Memtable) (cursor : Cursor) :
    (next table cursor).1 = (pending table cursor).head? := by
  cases hopen : cursor.finished with
  | true => simp [next, pending, hopen]
  | false =>
    cases hfind : table.entries.find? fun entry => cursor.isAhead entry.key with
    | none =>
      have hnone := List.find?_eq_none.1 hfind
      have hpending : pending table cursor = [] := by
        rw [pending, hopen, if_neg (by simp), List.filter_eq_nil_iff]
        intro e he hkept
        exact hnone e he (Bool.and_eq_true_iff.1 hkept).1
      simp [next, hopen, hfind, hpending]
    | some entry =>
      obtain ⟨hahead, front, back, hsplit, hfront⟩ := List.find?_eq_some_iff_append.1 hfind
      have hasc := table.ascending
      rw [hsplit] at hasc
      have hback := (List.pairwise_append.1 hasc).2.1
      rw [pending_of_split hopen hsplit (by simpa using hfront) hahead]
      cases hends : cursor.range.endsAfter entry.key with
      | true => simp [next, hopen, hfind, hends]
      | false =>
        rw [filter_endsAfter_eq_nil hback hends]
        simp [next, hopen, hfind, hends]

/-- A step that yields an entry moves an open cursor past its key. -/
theorem next_of_some {table : Memtable} {cursor : Cursor} {entry : Entry}
    (h : (next table cursor).1 = some entry) :
    cursor.finished = false ∧ (next table cursor).2 = { cursor with last := some entry.key } := by
  unfold next at h ⊢
  split at h
  · cases h
  · next hopen =>
    rw [if_neg hopen]
    refine ⟨by simpa using hopen, ?_⟩
    split at h
    · cases h
    · split at h
      · next hends =>
        cases h
        simp [hends]
      · cases h

/-- **A step leaves the other pending entries pending.** -/
theorem pending_next (table : Memtable) (cursor : Cursor) :
    pending table (next table cursor).2 = (pending table cursor).tail := by
  cases hopen : cursor.finished with
  | true => simp [next, pending, hopen]
  | false =>
    cases hfind : table.entries.find? fun entry => cursor.isAhead entry.key with
    | none =>
      have hhead := next_fst table cursor
      rw [next, hopen, hfind] at hhead ⊢
      rw [List.head?_eq_none_iff.1 hhead.symm, List.tail_nil]
      exact pending_of_finished rfl
    | some entry =>
      obtain ⟨hahead, front, back, hsplit, hfront⟩ := List.find?_eq_some_iff_append.1 hfind
      have hasc := table.ascending
      rw [hsplit] at hasc
      obtain ⟨-, hback, hcross⟩ := List.pairwise_append.1 hasc
      obtain ⟨hlater, -⟩ := List.pairwise_cons.1 hback
      rw [pending_of_split hopen hsplit (by simpa using hfront) hahead]
      cases hends : cursor.range.endsAfter entry.key with
      | false =>
        rw [filter_endsAfter_eq_nil hback hends]
        simp [next, hopen, hfind, hends, pending_of_finished]
      | true =>
        -- Moved past the entry, the cursor has the entries after it ahead and no others.
        have hnext : (next table cursor).2 = { cursor with last := some entry.key } := by
          simp [next, hopen, hfind, hends]
        have hfrontOut : (front ++ [entry]).filter (fun e =>
            decide (entry.key < e.key) && cursor.range.endsAfter e.key) = [] := by
          rw [List.filter_eq_nil_iff]
          intro e he hkept
          have hlt := of_decide_eq_true (Bool.and_eq_true_iff.1 hkept).1
          rcases List.mem_append.1 he with he | he
          · exact Bytes.lt_asymm (hcross e he entry (by simp)) hlt
          · exact Bytes.lt_irrefl _ (List.mem_singleton.1 he ▸ hlt)
        have hsplit' : table.entries = (front ++ [entry]) ++ back := by simp [hsplit]
        rw [hnext, pending_moved table hopen, hsplit', List.filter_append, hfrontOut,
          List.nil_append, List.filter_cons, hends, if_pos rfl, List.tail_cons]
        refine List.filter_congr fun e he => ?_
        rw [decide_eq_true (hlater e he), Bool.true_and]

end Cursor

/-! ## Reading to the end -/

theorem pending_cursorReader (table : Memtable) (cursor : Cursor) :
    table.cursorReader.pending cursor = cursor.pending table :=
  table.cursorReader.pending_eq (Cursor.pending table) (Cursor.next_fst table) (Cursor.pending_next table) cursor

theorem pending_ofRange (table : Memtable) (range : KeyRange) :
    (Cursor.ofRange range).pending table =
      table.entries.filter fun entry => range.contains entry.key := by
  rw [Cursor.pending, Cursor.ofRange]
  cases hempty : range.isEmpty with
  | true => simp [KeyRange.not_contains_of_isEmpty hempty]
  | false => rfl

/-- **A range of a table** is read as the entries whose keys lie in it. -/
theorem rangeEntries_eq_filter (table : Memtable) (range : KeyRange) :
    table.rangeEntries range = table.entries.filter fun entry => range.contains entry.key :=
  (pending_cursorReader table (Cursor.ofRange range)).trans (pending_ofRange table range)

end LsmTree.Memtable
