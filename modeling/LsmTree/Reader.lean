import LsmTree.Entry

/-!
# Reading entries one at a time

A reader says how a kind of source gives up its entries: each step yields the next entry or none, and
the source that is left. A step that yields an entry lowers the count that bounds how many are still to
come, so reading to the end always ends.

* **`Reader.drain`** reads to the end;
* **`Reader.steps`** takes a given number of steps, past the end as well;
* **`Reader.list`** reads a list, **`Reader.sum`** reads sources of two kinds.
-/

namespace LsmTree

/-- How sources of one kind give up their entries. -/
structure Reader (σ : Type) where
  /-- The next entry, if there is one, and the source that is left. -/
  next : σ → Option Entry × σ
  /-- A bound on how many entries are still to come. -/
  remaining : σ → Nat
  remaining_next : ∀ {source : σ} {entry : Entry},
    (next source).1 = some entry → remaining (next source).2 < remaining source

namespace Reader

variable {σ τ : Type}

/-- All entries that are still to come, and the source after them. -/
def drain (reader : Reader σ) (source : σ) : List Entry × σ :=
  match _h : (reader.next source).1 with
  | none => ([], (reader.next source).2)
  | some entry =>
    let rest := drain reader (reader.next source).2
    (entry :: rest.1, rest.2)
termination_by reader.remaining source
decreasing_by exact reader.remaining_next _h

/-- What `count` steps yield, those past the end included. -/
def steps (reader : Reader σ) : (count : Nat) → σ → List (Option Entry) × σ
  | 0, source => ([], source)
  | count + 1, source =>
    let head := reader.next source
    let rest := steps reader count head.2
    (head.1 :: rest.1, rest.2)

/-- Reads a list from its front. -/
def list : Reader (List Entry) where
  next
    | [] => (none, [])
    | entry :: rest => (some entry, rest)
  remaining := List.length
  remaining_next := by
    intro source entry h
    cases source with
    | nil => simp at h
    | cons head rest => simp

/-- Reads sources of either of two kinds. -/
def sum (left : Reader σ) (right : Reader τ) : Reader (σ ⊕ τ) where
  next
    | .inl source => ((left.next source).1, .inl (left.next source).2)
    | .inr source => ((right.next source).1, .inr (right.next source).2)
  remaining
    | .inl source => left.remaining source
    | .inr source => right.remaining source
  remaining_next := by
    intro source entry h
    cases source with
    | inl source => exact left.remaining_next h
    | inr source => exact right.remaining_next h

theorem drain_of_none {reader : Reader σ} {source : σ} (h : (reader.next source).1 = none) :
    reader.drain source = ([], (reader.next source).2) := by
  rw [drain]
  split
  · rfl
  · simp_all

theorem drain_of_some {reader : Reader σ} {source : σ} {entry : Entry}
    (h : (reader.next source).1 = some entry) :
    reader.drain source = (entry :: (reader.drain (reader.next source).2).1,
      (reader.drain (reader.next source).2).2) := by
  rw [drain]
  split
  · simp_all
  · simp_all

theorem drain_list (entries : List Entry) : list.drain entries = (entries, []) := by
  induction entries with
  | nil => exact drain_of_none rfl
  | cons entry rest ih =>
    have hnext : (list.next (entry :: rest)).1 = some entry := rfl
    rw [drain_of_some hnext]
    simp [list] at ih ⊢
    simp [ih]

end Reader

end LsmTree
