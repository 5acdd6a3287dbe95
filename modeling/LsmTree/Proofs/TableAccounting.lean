import Mathlib.Data.List.Dedup
import LsmTree.Proofs.Overlay

/-!
# The account of a table

A table never adds up what it holds. Each call adds the octets of what it writes and takes off those of
the version that it replaces, if that version has any. As long as nobody else writes meanwhile, this is
exact:

* **`Memtable.get?_insertAll`**, **`Memtable.eq_of_get?`** — writes leave the last version of each key, and
  a table is known from what it answers, its size included;
* **`Memtable.size_insert`** — one write: nothing is taken off that was not added before;
* **`Memtable.size_runAll_le`** — a run of calls: the size never exceeds what was written;
* **`account_exact`** — after any calls the table holds the last entry of each key, its size is the sum of
  what it holds, and every call has told exactly that.
-/

namespace LsmTree.Memtable

/-! ## Writes one after another -/

/-- Writes entries one after another. -/
def insertAll (table : Memtable) (entries : List Entry) : Memtable := entries.foldl insert table

theorem insertAll_cons (table : Memtable) (entry : Entry) (rest : List Entry) :
    table.insertAll (entry :: rest) = (table.insert entry).insertAll rest := rfl

/-- The last of the writes of a key decides; without one, the table answers as before. -/
theorem get?_insertAll (table : Memtable) (entries : List Entry) (key : Bytes) :
    (table.insertAll entries).get? key = (lookup entries.reverse key).or (table.get? key) := by
  induction entries generalizing table with
  | nil => rfl
  | cons entry rest ih =>
    rw [insertAll_cons, ih, get?_insert, List.reverse_cons, lookup_append, Option.or_assoc]
    congr 1
    rw [lookup_cons, lookup_nil]
    split <;> rfl

theorem mem_entries_iff (table : Memtable) (entry : Entry) :
    entry ∈ table.entries ↔ table.get? entry.key = some entry := by
  rw [get?_eq_lookup, lookup_eq_some table.ascending, and_iff_left rfl]

/-- **A table is known from its answers.** Its entries are in order, and its size is what they hold. -/
theorem eq_of_get? {table other : Memtable} (h : ∀ key, table.get? key = other.get? key) :
    table = other := by
  have hentries : table.entries = other.entries := by
    apply ascending_ext table.ascending other.ascending
    intro entry
    rw [mem_entries_iff, mem_entries_iff, h]
  have hsize : table.size = other.size := by
    rw [table.accounted, other.accounted, hentries]
  cases table
  cases other
  subst hentries hsize
  rfl

/-! ## Calls

A table is written by calls of three kinds. Each tells the size that it has made. -/

/-- A call that writes. -/
inductive Call
  | put (key value : Bytes)
  | delete (key : Bytes)
  | insert (entry : Entry)

namespace Call

/-- The entry that a call writes. -/
def entry : Call → Entry
  | put key value => .put key value
  | delete key => .tombstone key
  | insert entry => entry

/-- Makes the call: the size that it tells, and the table after it. -/
def run (table : Memtable) : Call → Nat × Memtable
  | put key value => table.put key value
  | delete key => table.delete key
  | insert entry => table.write entry

/-- Calls of all kinds write their entry. -/
theorem run_eq (table : Memtable) (call : Call) : call.run table = table.write call.entry := by
  cases call with
  | put key value => rfl
  | delete key => rfl
  | insert entry => rfl

end Call

/-- Makes calls one after another: what each of them tells, and the table after the last one. -/
def runAll (table : Memtable) : List Call → List Nat × Memtable
  | [] => ([], table)
  | call :: rest =>
    let (told, table) := call.run table
    let (others, table) := table.runAll rest
    (told :: others, table)

/-- The table that calls make of the empty one. -/
def after (calls : List Call) : Memtable := (empty.runAll calls).2

theorem runAll_cons (table : Memtable) (call : Call) (rest : List Call) :
    table.runAll (call :: rest) =
      ((table.write call.entry).1 :: ((table.insert call.entry).runAll rest).1,
        ((table.insert call.entry).runAll rest).2) := by
  rw [runAll, Call.run_eq]
  rfl

theorem runAll_append (table : Memtable) (earlier later : List Call) :
    table.runAll (earlier ++ later) =
      ((table.runAll earlier).1 ++ ((table.runAll earlier).2.runAll later).1,
        ((table.runAll earlier).2.runAll later).2) := by
  induction earlier generalizing table with
  | nil => rfl
  | cons call rest ih =>
    rw [List.cons_append, runAll_cons, runAll_cons, ih]
    rfl

theorem length_runAll (table : Memtable) (calls : List Call) :
    (table.runAll calls).1.length = calls.length := by
  induction calls generalizing table with
  | nil => rfl
  | cons call rest ih => rw [runAll_cons, List.length_cons, ih, List.length_cons]

theorem runAll_snd (table : Memtable) (calls : List Call) :
    (table.runAll calls).2 = table.insertAll (calls.map Call.entry) := by
  induction calls generalizing table with
  | nil => rfl
  | cons call rest ih =>
    rw [runAll_cons, List.map_cons, insertAll_cons, ← ih]

theorem get?_after (calls : List Call) (key : Bytes) :
    (after calls).get? key = lookup (calls.map Call.entry).reverse key := by
  rw [after, runAll_snd, get?_insertAll, get?_empty, Option.or_none]

/-! ## Sizes -/

theorem heldSize_append (first second : List Entry) :
    heldSize (first ++ second) = heldSize first + heldSize second := by
  induction first with
  | nil => exact (Nat.zero_add _).symm
  | cons entry rest ih => rw [List.cons_append, heldSize_cons, heldSize_cons, ih, Nat.add_assoc]

/-- What a call tells is the size that it leaves. -/
theorem write_fst (table : Memtable) (entry : Entry) :
    (table.write entry).1 = (table.insert entry).size := by
  show (table.newSizes entry).1 = (table.newSizes entry).2
  rw [newSizes_eq]

/-- **One write.** The size is what it had grown to, less the octets of the replaced version, and these
were among what it had grown to. -/
theorem size_insert (table : Memtable) (entry : Entry) :
    (table.insert entry).size + table.replacedSize entry.key = table.grownSize entry := by
  rw [grownSize_eq, (table.insert entry).accounted, entries_insert]

/-- **A run of calls.** The size never exceeds what was there and what the calls have written. -/
theorem size_runAll_le (table : Memtable) (calls : List Call) :
    (table.runAll calls).2.size ≤ table.size + heldSize (calls.map Call.entry) := by
  induction calls generalizing table with
  | nil => exact Nat.le_add_right _ _
  | cons call rest ih =>
    have hstep := table.size_insert call.entry
    have hrest := ih (table.insert call.entry)
    unfold grownSize at hstep
    rw [runAll_cons, List.map_cons, heldSize_cons]
    show ((table.insert call.entry).runAll rest).2.size ≤ _
    omega

/-- The keys in a table are those that were written, each of them once. -/
theorem count_after (calls : List Call) :
    (after calls).count = (calls.map fun call => call.entry.key).dedup.length := by
  have hnodup : ((after calls).entries.map Entry.key).Nodup := by
    refine List.Pairwise.map Entry.key ?_ (after calls).ascending
    intro a b hlt heq
    exact Bytes.lt_irrefl a.key (heq ▸ hlt)
  have hkeys : ∀ key, key ∈ (after calls).entries.map Entry.key ↔
      key ∈ (calls.map fun call => call.entry.key).dedup := by
    intro key
    -- A key is in either list unless it is looked up there in vain.
    have hheld : key ∈ (after calls).entries.map Entry.key ↔ (after calls).get? key ≠ none := by
      rw [get?_eq_lookup, ne_eq, lookup_eq_none, List.mem_map]
      simp
    rw [hheld, get?_after, ne_eq, lookup_eq_none, List.mem_dedup, List.mem_map]
    simp
  have hperm := (List.perm_ext_iff_of_nodup hnodup (List.nodup_dedup _)).2 hkeys
  rw [count, ← hperm.length_eq, List.length_map]

/-- **The account of a table is exact**, for any calls that write less than 2^64 octets in total. The
table holds exactly the last entry written for each key, as many as there are keys. Its size is the sum
over the entries that it holds. Each call has told the size as it was after it; the size has not
overflowed, and no subtraction has stopped at zero. -/
theorem account_exact (calls : List Call)
    (htotal : heldSize (calls.map Call.entry) < UInt64.size) :
    (∀ entry, entry ∈ (after calls).entries ↔
      lookup (calls.map Call.entry).reverse entry.key = some entry) ∧
    (∀ key, (after calls).get? key = lookup (calls.map Call.entry).reverse key) ∧
    (after calls).size = heldSize (after calls).entries ∧
    (after calls).count = (calls.map fun call => call.entry.key).dedup.length ∧
    (empty.runAll calls).1.length = calls.length ∧
    ∀ earlier call later, calls = earlier ++ call :: later →
      (empty.runAll calls).1[earlier.length]? = some (after (earlier ++ [call])).size ∧
      (after earlier).grownSize call.entry < UInt64.size ∧
      (after earlier).replacedSize call.entry.key ≤ (after earlier).grownSize call.entry := by
  refine ⟨?held, get?_after calls, (after calls).accounted, count_after calls, length_runAll empty calls, ?each⟩
  case held =>
    intro entry
    rw [mem_entries_iff, get?_after]
  case each =>
    rintro earlier call later rfl
    have hstep := (after earlier).size_insert call.entry
    refine ⟨?_, ?_, by omega⟩
    · have htold : (empty.runAll (earlier ++ call :: later)).1 = (empty.runAll earlier).1 ++
          ((after earlier).write call.entry).1 ::
            (((after earlier).insert call.entry).runAll later).1 := by
        rw [runAll_append, runAll_cons]
        rfl
      have hlast : after (earlier ++ [call]) = (after earlier).insert call.entry := by
        rw [after, runAll_append, runAll_cons]
        rfl
      rw [htold, hlast, List.getElem?_append_right (Nat.le_of_eq (length_runAll empty earlier)),
        length_runAll, Nat.sub_self, List.getElem?_cons_zero, write_fst]
    · -- The octets of this call and of those before it are part of the total.
      have hbefore := size_runAll_le empty earlier
      have hempty : empty.size = 0 := rfl
      have hsum : heldSize ((earlier ++ call :: later).map Call.entry) =
          heldSize (earlier.map Call.entry) + (call.entry.byteSize + heldSize (later.map Call.entry)) := by
        rw [List.map_append, heldSize_append, List.map_cons, heldSize_cons]
      rw [hempty] at hbefore
      unfold grownSize after
      omega

/-- An empty key, deleted and written empty, and two keys written over by a longer value and by a
tombstone: the account after each call. -/
theorem account_exact_overwritten :
    let calls : List Call := [.delete [], .put [1] [7, 7], .put [] [], .put [1] [8, 8, 8],
      .put [2, 3] [9], .insert (.tombstone [2, 3])]
    (heldSize (calls.map Call.entry) < UInt64.size) ∧
      (empty.runAll calls).1 = [0, 3, 3, 4, 7, 6] ∧ (after calls).size = 6 ∧ (after calls).count = 3 ∧
      ∀ key, (after calls).get? key = lookup (calls.map Call.entry).reverse key := by
  refine ⟨by decide, by decide, by decide, by decide, ?_⟩
  exact (account_exact _ (by decide)).2.1

end LsmTree.Memtable
