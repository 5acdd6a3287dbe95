import LsmTree.Reader

/-!
# What a source has still to yield

Reading a source to its end yields a list, and most facts about sources are facts about that list:

* **`Reader.pending`** — the entries still to come;
* **`Reader.pending_eq`** — a view of the sources of a kind is that list, if each step yields its head
  and leaves its tail;
* **`Reader.steps_eq`** — and any count of steps gives up that view from its front, then nothing.
-/

namespace LsmTree.Reader

variable {σ : Type} {reader : Reader σ} {source : σ}

/-- The entries that are still to come. -/
def pending (reader : Reader σ) (source : σ) : List Entry := (reader.drain source).1

theorem pending_of_none (h : (reader.next source).1 = none) : reader.pending source = [] := by
  rw [pending, drain_of_none h]

theorem pending_of_some {entry : Entry} (h : (reader.next source).1 = some entry) :
    reader.pending source = entry :: reader.pending (reader.next source).2 := by
  rw [pending, drain_of_some h, pending]

/-- A view whose head each step yields, and whose tail each step leaves, is what is still to come. -/
theorem pending_eq (reader : Reader σ) (view : σ → List Entry)
    (hhead : ∀ source, (reader.next source).1 = (view source).head?)
    (htail : ∀ source, view (reader.next source).2 = (view source).tail) (source : σ) :
    reader.pending source = view source := by
  generalize hview : view source = entries
  induction entries generalizing source with
  | nil =>
    apply pending_of_none
    rw [hhead, hview, List.head?_nil]
  | cons entry rest ih =>
    have hsome : (reader.next source).1 = some entry := by rw [hhead, hview, List.head?_cons]
    have hrest : view (reader.next source).2 = rest := by rw [htail, hview, List.tail_cons]
    rw [pending_of_some hsome, ih _ hrest]

/-- A step yields the first of the entries still to come. -/
theorem next_fst (reader : Reader σ) (source : σ) :
    (reader.next source).1 = (reader.pending source).head? := by
  cases hnext : (reader.next source).1 with
  | none => rw [pending_of_none hnext, List.head?_nil]
  | some entry => rw [pending_of_some hnext, List.head?_cons]

/-- A view whose head each step yields, and whose tail each step leaves, is given up entry by entry, and
then nothing is. Induction on the count of steps. -/
theorem steps_eq (reader : Reader σ) (view : σ → List Entry)
    (hhead : ∀ source, (reader.next source).1 = (view source).head?)
    (htail : ∀ source, view (reader.next source).2 = (view source).tail) (count : Nat) (source : σ) :
    (reader.steps count source).1 = (List.range count).map (fun i => (view source)[i]?) ∧
      view (reader.steps count source).2 = (view source).drop count := by
  induction count generalizing source with
  | zero => exact ⟨rfl, List.drop_zero.symm⟩
  | succ count ih =>
    obtain ⟨hyielded, hleft⟩ := ih (reader.next source).2
    rw [htail] at hyielded hleft
    constructor
    · have hlater : ∀ i, (view source).tail[i]? = (view source)[i + 1]? := fun i => by
        rw [List.getElem?_tail]
      rw [steps, List.range_succ_eq_map, List.map_cons, List.map_map]
      dsimp only
      rw [hyielded, hhead, List.head?_eq_getElem?]
      simp only [hlater]
      rfl
    · rw [List.drop_tail] at hleft
      exact hleft

end LsmTree.Reader
