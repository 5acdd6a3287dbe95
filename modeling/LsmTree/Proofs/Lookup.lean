import LsmTree.Memtable

/-!
# Looking keys up in lists of entries

Every layer of the store is, read as a whole, a list of entries with at most one entry for a key. This
module says what a lookup in such a list finds, and what a write does to it:

* **`lookup_eq_some`** — in an ascending list a lookup finds exactly the entry that the list holds;
* **`lookup_filter_range`** — restricting a list to a range hides the keys outside it and no others;
* **`lookup_insertEntry`** — after a write the key has the new entry, every other key has its old one;
* **`ascending_ext`** — an ascending list is known from the entries it holds.
-/

namespace LsmTree

/-- The first entry of a key. -/
def lookup (entries : List Entry) (key : Bytes) : Option Entry :=
  entries.find? fun entry => entry.key = key

@[simp] theorem lookup_nil (key : Bytes) : lookup [] key = none := rfl

theorem lookup_cons (entry : Entry) (entries : List Entry) (key : Bytes) :
    lookup (entry :: entries) key = if entry.key = key then some entry else lookup entries key := by
  by_cases h : entry.key = key
  · simp [lookup, h]
  · simp [lookup, h]

theorem lookup_append (front back : List Entry) (key : Bytes) :
    lookup (front ++ back) key = (lookup front key).or (lookup back key) := by
  simp [lookup, List.find?_append]

theorem key_of_lookup {entries : List Entry} {key : Bytes} {entry : Entry}
    (h : lookup entries key = some entry) : entry.key = key := by
  simpa using List.find?_some h

theorem mem_of_lookup {entries : List Entry} {key : Bytes} {entry : Entry}
    (h : lookup entries key = some entry) : entry ∈ entries :=
  List.mem_of_find?_eq_some h

theorem lookup_eq_none {entries : List Entry} {key : Bytes} :
    lookup entries key = none ↔ ∀ entry ∈ entries, entry.key ≠ key := by
  simp [lookup]

/-! ## Ascending lists -/

theorem Ascending.eq_of_key_eq {entries : List Entry} (h : Ascending entries) {a b : Entry}
    (ha : a ∈ entries) (hb : b ∈ entries) (hkey : a.key = b.key) : a = b := by
  induction entries with
  | nil => simp at ha
  | cons head rest ih =>
    obtain ⟨hhead, hrest⟩ := List.pairwise_cons.1 h
    rcases List.mem_cons.1 ha with rfl | ha'
    · rcases List.mem_cons.1 hb with rfl | hb'
      · rfl
      · exact absurd (hkey ▸ hhead b hb') (Bytes.lt_irrefl _)
    · rcases List.mem_cons.1 hb with rfl | hb'
      · exact absurd (hkey ▸ hhead a ha') (Bytes.lt_irrefl _)
      · exact ih hrest ha' hb'

/-- **Lookup is membership.** In an ascending list a lookup finds exactly the entry that is there. -/
theorem lookup_eq_some {entries : List Entry} (h : Ascending entries) {key : Bytes} {entry : Entry} :
    lookup entries key = some entry ↔ entry ∈ entries ∧ entry.key = key := by
  constructor
  · intro hfind
    exact ⟨mem_of_lookup hfind, key_of_lookup hfind⟩
  · rintro ⟨hmem, hkey⟩
    cases hfind : lookup entries key with
    | none => exact absurd hkey (lookup_eq_none.1 hfind entry hmem)
    | some found =>
      have hsame : found.key = entry.key := (key_of_lookup hfind).trans hkey.symm
      rw [h.eq_of_key_eq (mem_of_lookup hfind) hmem hsame]

theorem Ascending.filter {entries : List Entry} (h : Ascending entries) (p : Entry → Bool) :
    Ascending (entries.filter p) :=
  List.Pairwise.filter p h

theorem ascending_ext {a b : List Entry} (ha : Ascending a) (hb : Ascending b)
    (h : ∀ entry, entry ∈ a ↔ entry ∈ b) : a = b := by
  induction a generalizing b with
  | nil =>
    cases b with
    | nil => rfl
    | cons y ys => exact absurd ((h y).2 (by simp)) (by simp)
  | cons x xs ih =>
    cases b with
    | nil => exact absurd ((h x).1 (by simp)) (by simp)
    | cons y ys =>
      obtain ⟨hx, hxs⟩ := List.pairwise_cons.1 ha
      obtain ⟨hy, hys⟩ := List.pairwise_cons.1 hb
      -- Each head is in the other list, and neither can come after the other one.
      have hxy : x = y := by
        rcases List.mem_cons.1 ((h x).1 (by simp)) with rfl | hxys
        · rfl
        · rcases List.mem_cons.1 ((h y).2 (by simp)) with rfl | hyxs
          · rfl
          · exact absurd (hx y hyxs) (Bytes.lt_asymm (hy x hxys))
      subst hxy
      congr 1
      refine ih hxs hys fun entry => ⟨fun hmem => ?_, fun hmem => ?_⟩
      · rcases List.mem_cons.1 ((h entry).1 (List.mem_cons_of_mem _ hmem)) with rfl | hin
        · exact absurd (hx entry hmem) (Bytes.lt_irrefl _)
        · exact hin
      · rcases List.mem_cons.1 ((h entry).2 (List.mem_cons_of_mem _ hmem)) with rfl | hin
        · exact absurd (hy entry hmem) (Bytes.lt_irrefl _)
        · exact hin

/-- Restricting a list to some keys hides the others and none of these. -/
theorem lookup_filter_key (entries : List Entry) (kept : Bytes → Bool) (key : Bytes) :
    lookup (entries.filter fun entry => kept entry.key) key =
      if kept key then lookup entries key else none := by
  induction entries with
  | nil => simp
  | cons head rest ih =>
    by_cases hin : kept head.key = true
    · rw [List.filter_cons, if_pos hin, lookup_cons, lookup_cons, ih]
      by_cases hkey : head.key = key
      · subst hkey
        simp [hin]
      · simp [hkey]
    · rw [List.filter_cons, if_neg hin, ih, lookup_cons]
      by_cases hkey : head.key = key
      · subst hkey
        simp [hin]
      · simp [hkey]

/-- Restricting a list to a range hides the keys outside the range and no others. -/
theorem lookup_filter_range (entries : List Entry) (range : KeyRange) (key : Bytes) :
    lookup (entries.filter fun entry => range.contains entry.key) key =
      if range.contains key then lookup entries key else none :=
  lookup_filter_key entries range.contains key

/-! ## Writes -/

/-- After a write the key has the new entry, and every other key the entry it had. -/
theorem lookup_insertEntry (entry : Entry) (entries : List Entry) (key : Bytes) :
    lookup (insertEntry entry entries) key =
      if entry.key = key then some entry else lookup entries key := by
  induction entries with
  | nil => simp [insertEntry, lookup_cons]
  | cons head rest ih =>
    simp only [insertEntry]
    split
    · rw [lookup_cons]
    · next hnlt =>
      split
      · next hgt =>
        rw [lookup_cons, ih, lookup_cons]
        by_cases hhead : head.key = key
        · have hne : ¬ entry.key = key := by
            rintro rfl
            exact Bytes.lt_irrefl _ (hhead ▸ hgt)
          simp [hhead, hne]
        · simp [hhead]
      · next hngt =>
        have hkey : entry.key = head.key := Bytes.eq_of_not_lt hnlt hngt
        rw [lookup_cons, lookup_cons]
        by_cases h : entry.key = key
        · simp [h]
        · have hhead : ¬ head.key = key := fun hh => h (hkey.trans hh)
          simp [h, hhead]

namespace Memtable

theorem get?_eq_lookup (table : Memtable) (key : Bytes) :
    table.get? key = lookup table.entries key := rfl

@[simp] theorem get?_empty (key : Bytes) : Memtable.empty.get? key = none := rfl

theorem get?_insert (table : Memtable) (entry : Entry) (key : Bytes) :
    (table.insert entry).get? key = if entry.key = key then some entry else table.get? key :=
  lookup_insertEntry entry table.entries key

end Memtable

end LsmTree
