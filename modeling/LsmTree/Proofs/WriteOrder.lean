import LsmTree.Maintenance
import LsmTree.Proofs.Paths
import LsmTree.Proofs.TableAccounting

/-!
# The order of writes

Writes of different keys may come in any order, and a write that is written over leaves no trace. What
counts is the last entry of each key:

* **`EndsAlike`** — two sequences of writes end with the same entry for each key; so do the permutations
  of writes of different keys (`EndsAlike.of_perm`), and a sequence without a write that it writes over
  (`EndsAlike.overwritten`);
* **`Memtable.insertAll_eq`** — such sequences make the same table: its answers depend on the last entries
  alone, and a table is known from its answers;
* **`Engine.upsertAll_eq`** — an open engine puts the sequence into its active table, and nowhere else;
* **`write_order_invisible`** — so neither the table before a flush, nor what is answered after it, nor
  any file that it writes tells one sequence from the other.
-/

namespace LsmTree

/-! ## Sequences of writes that end alike -/

/-- The last entry of each key is the same in both sequences. -/
def EndsAlike (first second : List Entry) : Prop :=
  ∀ key, lookup first.reverse key = lookup second.reverse key

/-- Where no two entries have the same key, their order makes no difference to a lookup. -/
theorem lookup_perm {first second : List Entry} (h : first.Perm second)
    (hdistinct : first.Pairwise fun a b => a.key ≠ b.key) (key : Bytes) :
    lookup first key = lookup second key := by
  induction h with
  | nil => rfl
  | cons entry _ ih =>
    rw [lookup_cons, lookup_cons, ih (List.pairwise_cons.1 hdistinct).2]
  | swap a b rest =>
    have hne : b.key ≠ a.key := (List.pairwise_cons.1 hdistinct).1 a (by simp)
    rw [lookup_cons, lookup_cons, lookup_cons, lookup_cons]
    by_cases hb : b.key = key
    · have ha : a.key ≠ key := fun ha => hne (hb.trans ha.symm)
      rw [if_pos hb, if_neg ha, if_pos hb]
    · rw [if_neg hb, if_neg hb]
  | trans hfirst _ ih ih' =>
    have hmiddle := (hfirst.pairwise_iff fun hne => Ne.symm hne).1 hdistinct
    rw [ih hdistinct, ih' hmiddle]

namespace EndsAlike

theorem trans {first second third : List Entry} (h : EndsAlike first second)
    (h' : EndsAlike second third) : EndsAlike first third :=
  fun key => (h key).trans (h' key)

/-- Writes of different keys end alike in any order. -/
theorem of_perm {first second : List Entry} (h : first.Perm second)
    (hdistinct : first.Pairwise fun a b => a.key ≠ b.key) : EndsAlike first second := by
  have hreverse : first.reverse.Perm second.reverse :=
    (first.reverse_perm.trans h).trans second.reverse_perm.symm
  have hdistinct' : first.reverse.Pairwise fun a b => a.key ≠ b.key :=
    (first.reverse_perm.symm.pairwise_iff fun hne => Ne.symm hne).1 hdistinct
  exact lookup_perm hreverse hdistinct'

/-- A write makes no difference if its key is written later on. -/
theorem overwritten (earlier later : List Entry) {entry newer : Entry} (hmem : newer ∈ later)
    (hkey : newer.key = entry.key) : EndsAlike (earlier ++ entry :: later) (earlier ++ later) := by
  intro key
  rw [List.reverse_append, List.reverse_append, List.reverse_cons, lookup_append, lookup_append,
    lookup_append, Option.or_assoc]
  by_cases hwritten : entry.key = key
  · -- The later sequence has an entry of the key, so nothing before it is asked.
    have hfound : lookup later.reverse key ≠ none := by
      intro hnone
      exact lookup_eq_none.1 hnone newer (by simpa using hmem) (hkey.trans hwritten)
    obtain ⟨last, hlast⟩ := Option.ne_none_iff_exists'.1 hfound
    rw [hlast, Option.some_or, Option.some_or]
  · rw [lookup_cons, if_neg hwritten, lookup_nil, Option.none_or]

end EndsAlike

/-! ## What they make of tables and engines -/

/-- **The table is the same** after sequences that end alike. -/
theorem Memtable.insertAll_eq (table : Memtable) {first second : List Entry}
    (h : EndsAlike first second) : table.insertAll first = table.insertAll second := by
  apply Memtable.eq_of_get?
  intro key
  rw [get?_insertAll, get?_insertAll, h key]

namespace Memory

/-- The memory after writes into one table. -/
def insertAll (memory : Memory) (id : Nat) (entries : List Entry) : Memory :=
  { memory with tables := memory.tables.modify id fun table => table.insertAll entries }

theorem insertAll_nil (memory : Memory) (id : Nat) : memory.insertAll id [] = memory := by
  have htables : (memory.tables.modify id fun table => table) = memory.tables := List.modify_id id _
  show { memory with tables := memory.tables.modify id fun table => table } = memory
  rw [htables]

theorem insertAll_cons (memory : Memory) (id : Nat) (entry : Entry) (rest : List Entry) :
    memory.insertAll id (entry :: rest) = (memory.insert id entry).insertAll id rest := by
  have htables : (memory.tables.modify id fun table => table.insertAll (entry :: rest)) =
      (memory.tables.modify id fun table => table.insert entry).modify id
        fun table => table.insertAll rest := by
    rw [List.modify_modify_eq]
    rfl
  rw [insertAll, htables]
  rfl

end Memory

/-- An open engine takes every write, and all go into its active table. -/
theorem Engine.upsertAll_eq {engine : Engine} (hopen : engine.closed = false) (memory : Memory)
    (entries : List Entry) :
    engine.upsertAll memory entries = .ok (memory.insertAll engine.active entries) := by
  induction entries generalizing memory with
  | nil => rw [upsertAll, Memory.insertAll_nil]
  | cons entry rest ih =>
    have hupsert : engine.upsert memory entry = .ok (memory.insert engine.active entry) := by
      rw [upsert, hopen]
      rfl
    rw [upsertAll, hupsert, Memory.insertAll_cons, ← ih]
    rfl

/-- **The order of writes is invisible.** Any open engine, with any tables, over any volume, takes two
sequences of writes that end alike. Its active table then has the same size and count of entries. A flush
comes to the same result after either; and after it every lookup and every range is answered the same,
and under every name the data directory has the same octets: under those of the data and index files and
of the manifest, too. -/
theorem write_order_invisible (engine : Engine) (hopen : engine.closed = false) (memory : Memory)
    (volume : Volume) (first second : List Entry) (hlast : EndsAlike first second) :
    ∃ one other, engine.upsertAll memory first = .ok one ∧ engine.upsertAll memory second = .ok other ∧
      (one.table engine.active).size = (other.table engine.active).size ∧
      (one.table engine.active).count = (other.table engine.active).count ∧
      ∀ result engine₁ memory₁ volume₁,
        Maintenance.run Maintenance.flush.run engine one volume = (result, engine₁, memory₁, volume₁) →
        ∃ engine₂ memory₂ volume₂,
          Maintenance.run Maintenance.flush.run engine other volume =
            (result, engine₂, memory₂, volume₂) ∧
          (∀ key, engine₁.get memory₁ key = engine₂.get memory₂ key) ∧
          (∀ range, engine₁.entries memory₁ range = engine₂.entries memory₂ range) ∧
          ∀ name, (volume₁.snapshot engine.config.dataDir).file? name =
            (volume₂.snapshot engine.config.dataDir).file? name := by
  have hsame : memory.insertAll engine.active first = memory.insertAll engine.active second := by
    have htable : (fun table : Memtable => table.insertAll first) = fun table => table.insertAll second :=
      funext fun table => table.insertAll_eq hlast
    rw [Memory.insertAll, htable]
    rfl
  refine ⟨_, _, Engine.upsertAll_eq hopen memory first, Engine.upsertAll_eq hopen memory second, ?_⟩
  -- The memories are equal, and a flush reads nothing else of what was written.
  rw [hsame]
  refine ⟨rfl, rfl, fun result engine₁ memory₁ volume₁ hflush => ?_⟩
  exact ⟨engine₁, memory₁, volume₁, hflush, fun _ => rfl, fun _ => rfl, fun _ => rfl⟩

/-- An engine over an empty directory. -/
def newEngine : Engine where
  config := { dataDir := "d" }
  manager := ⟨true, 1⟩
  closed := false
  active := 0
  queue := []
  segments := []

/-- Writes of three keys, one of them written twice. -/
def scattered : List Entry := [.put [2] [9], .put [1] [7], .tombstone [3], .put [1] [8, 8]]

/-- The same without the version written over, and in another order. -/
def gathered : List Entry := [.tombstone [3], .put [1] [8, 8], .put [2] [9]]

/-- After either sequence the table holds three entries and six octets, the flush succeeds, and the
files are the same. -/
theorem write_order_invisible_gathered :
    newEngine.closed = false ∧ EndsAlike scattered gathered ∧
      ∃ one other engine₁ memory₁ volume₁ engine₂ memory₂ volume₂,
        newEngine.upsertAll ⟨[.empty], 0⟩ scattered = .ok one ∧
        newEngine.upsertAll ⟨[.empty], 0⟩ gathered = .ok other ∧
        (one.table 0).size = 6 ∧ (other.table 0).size = 6 ∧
        (one.table 0).count = 3 ∧ (other.table 0).count = 3 ∧
        Maintenance.run Maintenance.flush.run newEngine one (Volume.empty.makeAll "d").2 =
          (.ok (), engine₁, memory₁, volume₁) ∧
        Maintenance.run Maintenance.flush.run newEngine other (Volume.empty.makeAll "d").2 =
          (.ok (), engine₂, memory₂, volume₂) ∧
        engine₂.get memory₂ [1] = .ok (some [8, 8]) ∧
        ∀ name, (volume₁.snapshot "d").file? name = (volume₂.snapshot "d").file? name := by
  have hshorter : EndsAlike scattered [.put [2] [9], .tombstone [3], .put [1] [8, 8]] :=
    EndsAlike.overwritten [.put [2] [9]] [.tombstone [3], .put [1] [8, 8]]
      (List.mem_cons_of_mem _ (List.mem_singleton_self (Entry.put [1] [8, 8]))) rfl
  have hlast : EndsAlike scattered gathered := hshorter.trans (.of_perm (by decide) (by decide))
  refine ⟨rfl, hlast, ?_⟩
  obtain ⟨one, other, hone, hother, hsize, hcount, hsame⟩ := write_order_invisible newEngine rfl
    ⟨[.empty], 0⟩ (Volume.empty.makeAll "d").2 scattered gathered hlast
  obtain rfl := Except.ok.inj (hone.symm.trans (Engine.upsertAll_eq rfl _ _))
  -- What one run comes to is computed, what the other comes to follows.
  have hcomputed : ((Memory.insertAll ⟨[.empty], 0⟩ 0 scattered).table 0).size = 6 ∧
      ((Memory.insertAll ⟨[.empty], 0⟩ 0 scattered).table 0).count = 3 ∧
      (Maintenance.run Maintenance.flush.run newEngine (Memory.insertAll ⟨[.empty], 0⟩ 0 scattered)
        (Volume.empty.makeAll "d").2).1 = .ok () ∧
      (let (_, engine, memory, _) := Maintenance.run Maintenance.flush.run newEngine
        (Memory.insertAll ⟨[.empty], 0⟩ 0 scattered) (Volume.empty.makeAll "d").2
       engine.get memory [1] = .ok (some [8, 8])) := by decide +kernel
  obtain ⟨hsize', hcount', hok, hget⟩ := hcomputed
  obtain ⟨engine₂, memory₂, volume₂, hrun, hgets, -, hfiles⟩ := hsame (.ok ()) _ _ _ (Prod.ext hok rfl)
  exact ⟨_, other, _, _, _, engine₂, memory₂, volume₂, hone, hother, hsize', hsize ▸ hsize', hcount',
    hcount ▸ hcount', Prod.ext hok rfl, hrun, (hgets [1]).symm.trans hget, hfiles⟩

end LsmTree
