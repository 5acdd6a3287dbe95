import LsmTree.Proofs.Lookup
import LsmTree.Proofs.Pending
import LsmTree.Segment

/-!
# Searching a segment

A segment whose keys ascend is searched by halving. Seen through `Segment.entries`:

* **`searchBetween_spec`** — a search ends at the key, or at the place between the smaller and the
  greater keys;
* **`find?_eq_lookup`** — so a lookup by halving finds what a walk over the entries finds;
* **`rangeEntries_eq_filter`** — and the positions cut out by two searches are those of the range;
* **`lookups_exact`** — so lookups and cursors over ranges are exact, at every step of a cursor.
-/

namespace LsmTree.Segment

variable {segment : Segment}

/-! ## Entries by position -/

@[simp] theorem length_entries (segment : Segment) : segment.entries.length = segment.count := by
  simp [entries]

theorem getElem_entries (segment : Segment) {i : Nat} (h : i < segment.entries.length) :
    segment.entries[i] = segment.entryAt i := by
  simp [entries]

@[simp] theorem key_entryAt (segment : Segment) (i : Nat) :
    (segment.entryAt i).key = segment.keyAt i := by
  unfold entryAt
  split <;> rfl

theorem mem_entries {entry : Entry} :
    entry ∈ segment.entries ↔ ∃ i < segment.count, segment.entryAt i = entry := by
  simp [entries]

theorem keyAt_lt (hasc : Ascending segment.entries) {i j : Nat} (hij : i < j)
    (hj : j < segment.count) : segment.keyAt i < segment.keyAt j := by
  have hj' : j < segment.entries.length := by simpa using hj
  have hlt := List.pairwise_iff_getElem.1 hasc i j (Nat.lt_trans hij hj') hj' hij
  simpa [getElem_entries] using hlt

/-! ## The search -/

/-- What a search is to tell: the position with the key, or the one where the smaller keys end and the
greater ones begin. -/
def Locates (segment : Segment) (key : Bytes) : Probe → Prop
  | .hit p => p < segment.count ∧ segment.keyAt p = key
  | .miss p => p ≤ segment.count ∧ (∀ i < p, segment.keyAt i < key) ∧
      ∀ i, p ≤ i → i < segment.count → key < segment.keyAt i

/-- **Halving keeps the key between the bounds.** Below `low` all keys are smaller, from `high` on all
are greater; the search follows the halving. -/
theorem searchBetween_spec (hasc : Ascending segment.entries) (key : Bytes) {low high : Nat}
    (hle : low ≤ high) (hhigh : high ≤ segment.count) (hbelow : ∀ i < low, segment.keyAt i < key)
    (habove : ∀ i, high ≤ i → i < segment.count → key < segment.keyAt i) :
    segment.Locates key (segment.searchBetween key low high) := by
  fun_induction searchBetween segment key low high with
  | case1 low high hlt middle horder ih =>
    have hsmaller := Bytes.order_eq_lt.1 horder
    refine ih (by omega) hhigh (fun i hi => ?_) habove
    rcases Nat.lt_or_eq_of_le (Nat.le_of_lt_succ hi) with hi | rfl
    · exact Bytes.lt_trans (keyAt_lt hasc hi (by omega)) hsmaller
    · exact hsmaller
  | case2 low high hlt middle horder ih =>
    have hgreater := Bytes.order_eq_gt.1 horder
    refine ih (by omega) (by omega) hbelow fun i hi hcount => ?_
    rcases Nat.lt_or_eq_of_le hi with hi | rfl
    · exact Bytes.lt_trans hgreater (keyAt_lt hasc hi hcount)
    · exact hgreater
  | case3 low high hlt middle horder =>
    exact ⟨by omega, Bytes.order_eq_eq.1 horder⟩
  | case4 low high hge =>
    have : low = high := by omega
    exact ⟨by omega, hbelow, this ▸ habove⟩

theorem search_spec (hasc : Ascending segment.entries) (key : Bytes) :
    segment.Locates key (segment.search key) :=
  searchBetween_spec hasc key (Nat.zero_le _) (Nat.le_refl _) (by simp)
    fun _ hle hlt => absurd hlt (Nat.not_lt.2 hle)

/-- **A lookup by halving finds what a walk over the entries finds.** -/
theorem find?_eq_lookup (hasc : Ascending segment.entries) (key : Bytes) :
    segment.find? key = lookup segment.entries key := by
  have hspec := search_spec hasc key
  unfold find?
  cases hsearch : segment.search key with
  | hit p =>
    rw [hsearch] at hspec
    obtain ⟨hp, hkey⟩ := hspec
    exact ((lookup_eq_some hasc).2 ⟨mem_entries.2 ⟨p, hp, rfl⟩, (key_entryAt _ _).trans hkey⟩).symm
  | miss p =>
    rw [hsearch] at hspec
    obtain ⟨-, hbelow, habove⟩ := hspec
    symm
    rw [lookup_eq_none]
    intro entry hmem hkey
    obtain ⟨i, hi, rfl⟩ := mem_entries.1 hmem
    rw [key_entryAt] at hkey
    rcases Nat.lt_or_ge i p with hip | hip
    · exact Bytes.lt_irrefl _ (hkey ▸ hbelow i hip)
    · exact Bytes.lt_irrefl _ (hkey ▸ habove i hip hi)

/-! ## Ranges -/

/-- The position a search ends at cuts the keys in two: the smaller ones and the others. -/
theorem position_search (hasc : Ascending segment.entries) (key : Bytes) :
    (segment.search key).position ≤ segment.count ∧
      (∀ i < (segment.search key).position, segment.keyAt i < key) ∧
      ∀ i, (segment.search key).position ≤ i → i < segment.count → ¬ segment.keyAt i < key := by
  have hspec := search_spec hasc key
  cases hsearch : segment.search key with
  | hit p =>
    rw [hsearch] at hspec
    obtain ⟨hp, rfl⟩ := hspec
    refine ⟨Nat.le_of_lt hp, fun i hi => keyAt_lt hasc hi hp, fun i hi hcount hlt => ?_⟩
    rcases Nat.lt_or_eq_of_le hi with hi | rfl
    · exact Bytes.lt_asymm hlt (keyAt_lt hasc hi hcount)
    · exact Bytes.lt_irrefl _ hlt
  | miss p =>
    rw [hsearch] at hspec
    obtain ⟨hp, hbelow, habove⟩ := hspec
    exact ⟨hp, hbelow, fun i hi hcount => Bytes.lt_asymm (habove i hi hcount)⟩

/-- The first position of a span cuts off the keys before the range. -/
theorem span_start (hasc : Ascending segment.entries) (range : KeyRange) :
    (segment.span range).1 ≤ segment.count ∧
      (∀ i < (segment.span range).1, range.startsBefore (segment.keyAt i) = false) ∧
      ∀ i, (segment.span range).1 ≤ i → i < segment.count →
        range.startsBefore (segment.keyAt i) = true := by
  unfold span KeyRange.startsBefore
  cases range.start with
  | none => simp
  | some start =>
    obtain ⟨hle, hbelow, habove⟩ := position_search hasc start
    exact ⟨hle, fun i hi => by simpa using hbelow i hi, fun i hi hc => by simpa using habove i hi hc⟩

/-- The last position of a span cuts off the keys past the range, as far as the span reaches. -/
theorem span_stop (hasc : Ascending segment.entries) (range : KeyRange) :
    (segment.span range).1 ≤ (segment.span range).2 ∧ (segment.span range).2 ≤ segment.count ∧
      (∀ i, (segment.span range).1 ≤ i → i < (segment.span range).2 →
        range.endsAfter (segment.keyAt i) = true) ∧
      ∀ i, (segment.span range).2 ≤ i → i < segment.count →
        range.endsAfter (segment.keyAt i) = false := by
  have hstart := (span_start hasc range).1
  unfold span at hstart ⊢
  unfold KeyRange.endsAfter
  cases range.stop with
  | none =>
    refine ⟨Nat.le_max_right _ _, by dsimp only at hstart ⊢; omega, by simp, fun i hi hc => ?_⟩
    dsimp only at hi
    omega
  | some stop =>
    obtain ⟨hle, hbelow, habove⟩ := position_search hasc stop
    dsimp only at hstart ⊢
    refine ⟨Nat.le_max_right _ _, by omega, fun i hi hlt => ?_, fun i hi hc => ?_⟩
    · exact decide_eq_true (hbelow i (by omega))
    · exact decide_eq_false (habove i (by omega) hc)

/-! ## Cursors -/

/-- The entries of the positions still to be read. -/
def Cursor.pending (segment : Segment) (cursor : Cursor) : List Entry :=
  (List.range' cursor.position (cursor.stop - cursor.position)).map segment.entryAt

theorem Cursor.next_fst (segment : Segment) (cursor : Cursor) :
    (segment.cursorReader.next cursor).1 = (cursor.pending segment).head? := by
  by_cases h : cursor.position < cursor.stop
  · obtain ⟨n, hn⟩ : ∃ n, cursor.stop - cursor.position = n + 1 := ⟨_, (Nat.succ_pred (by omega)).symm⟩
    simp [cursorReader, h, Cursor.pending, hn, List.range'_succ]
  · have hn : cursor.stop - cursor.position = 0 := by omega
    simp [cursorReader, h, Cursor.pending, hn]

theorem Cursor.pending_next (segment : Segment) (cursor : Cursor) :
    Cursor.pending segment (segment.cursorReader.next cursor).2 = (cursor.pending segment).tail := by
  by_cases h : cursor.position < cursor.stop
  · obtain ⟨n, hn⟩ : ∃ n, cursor.stop - cursor.position = n + 1 := ⟨_, (Nat.succ_pred (by omega)).symm⟩
    have hrest : cursor.stop - (cursor.position + 1) = n := by omega
    simp [cursorReader, h, Cursor.pending, hn, hrest, List.range'_succ]
  · have hn : cursor.stop - cursor.position = 0 := by omega
    simp [cursorReader, h, Cursor.pending, hn]

theorem pending_cursorReader (segment : Segment) (cursor : Cursor) :
    segment.cursorReader.pending cursor = cursor.pending segment :=
  segment.cursorReader.pending_eq (Cursor.pending segment) (Cursor.next_fst segment)
    (Cursor.pending_next segment) cursor

theorem pending_eq_take_drop {start stop : Nat} (hstop : stop ≤ segment.count) :
    Cursor.pending segment ⟨start, stop⟩ = (segment.entries.drop start).take (stop - start) := by
  apply List.ext_getElem
  · simp [Cursor.pending]
    omega
  · intro i h _
    simp [Cursor.pending, getElem_entries]

/-- **What is pending at the start of a range is what the range holds.** -/
theorem pending_ofRange (hasc : Ascending segment.entries) (range : KeyRange) :
    (Cursor.ofRange segment range).pending segment =
      segment.entries.filter fun entry => range.contains entry.key := by
  obtain ⟨hstart, hbefore, hfrom⟩ := span_start hasc range
  obtain ⟨hle, hstop, hinside, hpast⟩ := span_stop hasc range
  rw [Cursor.ofRange, pending_eq_take_drop hstop]
  generalize (segment.span range).1 = start at *
  generalize (segment.span range).2 = stop at *
  -- The entries fall into those before the range, those in it and those past it.
  have hsplit : segment.entries = segment.entries.take start ++
      ((segment.entries.drop start).take (stop - start) ++ segment.entries.drop stop) := by
    have hrest : (segment.entries.drop start).drop (stop - start) = segment.entries.drop stop := by
      rw [List.drop_drop]
      congr 1
      omega
    rw [← hrest, List.take_append_drop, List.take_append_drop]
  have hfront : (segment.entries.take start).filter (fun entry => range.contains entry.key) = [] := by
    rw [List.filter_eq_nil_iff]
    intro entry hmem
    obtain ⟨i, hi, rfl⟩ := List.mem_take_iff_getElem.1 hmem
    simp [getElem_entries, KeyRange.contains, hbefore i (by omega)]
  have hback : (segment.entries.drop stop).filter (fun entry => range.contains entry.key) = [] := by
    rw [List.filter_eq_nil_iff]
    intro entry hmem
    obtain ⟨i, hi, rfl⟩ := List.mem_drop_iff_getElem.1 hmem
    simp at hi
    simp [getElem_entries, KeyRange.contains, hpast (stop + i) (by omega) (by omega)]
  have hmiddle : ((segment.entries.drop start).take (stop - start)).filter
      (fun entry => range.contains entry.key) = (segment.entries.drop start).take (stop - start) := by
    rw [List.filter_eq_self]
    intro entry hmem
    obtain ⟨i, hi, rfl⟩ := List.mem_take_iff_getElem.1 hmem
    simp at hi
    simp [getElem_entries, KeyRange.contains, hfrom (start + i) (by omega) (by omega),
      hinside (start + i) (by omega) (by omega)]
  symm
  calc segment.entries.filter (fun entry => range.contains entry.key)
      = _ := congrArg (List.filter fun entry => range.contains entry.key) hsplit
    _ = (segment.entries.drop start).take (stop - start) := by
      rw [List.filter_append, List.filter_append, hfront, hback, hmiddle, List.nil_append,
        List.append_nil]

/-- **A range of a segment** is read as the entries whose keys lie in it. -/
theorem rangeEntries_eq_filter (hasc : Ascending segment.entries) (range : KeyRange) :
    segment.rangeEntries range = segment.entries.filter fun entry => range.contains entry.key :=
  (pending_cursorReader segment (Cursor.ofRange segment range)).trans (pending_ofRange hasc range)

/-! ## Exact lookups -/

theorem Cursor.length_pending (segment : Segment) (cursor : Cursor) :
    (cursor.pending segment).length = cursor.remaining := by
  simp [Cursor.pending, Cursor.remaining]

/-- **Lookups are exact.** In a segment whose keys ascend a lookup finds the entry of a key if there is one,
and nothing otherwise. The cursor of a range, whatever its bounds are, yields the entries whose keys lie in
the range, in their order, and then nothing; before each step it tells how many are still to come. -/
theorem lookups_exact (hasc : Ascending segment.entries) :
    (∀ key entry, segment.find? key = some entry ↔ entry ∈ segment.entries ∧ entry.key = key) ∧
    (∀ key, segment.find? key = none ↔ ∀ entry ∈ segment.entries, entry.key ≠ key) ∧
    ∀ range : KeyRange,
      let inside := segment.entries.filter fun entry => range.contains entry.key
      segment.rangeEntries range = inside ∧
      ∀ count, let read := segment.cursorReader.steps count (Cursor.ofRange segment range)
        read.1 = (List.range count).map (fun i => inside[i]?) ∧
        segment.cursorReader.pending read.2 = inside.drop count ∧
        read.2.remaining = (segment.cursorReader.pending read.2).length := by
  refine ⟨fun key entry => ?_, fun key => ?_, fun range => ⟨rangeEntries_eq_filter hasc range, ?_⟩⟩
  · rw [find?_eq_lookup hasc, lookup_eq_some hasc]
  · rw [find?_eq_lookup hasc, lookup_eq_none]
  · intro count read
    obtain ⟨hyielded, hleft⟩ := segment.cursorReader.steps_eq (Cursor.pending segment)
      (Cursor.next_fst segment) (Cursor.pending_next segment) count (Cursor.ofRange segment range)
    rw [pending_ofRange hasc] at hyielded hleft
    refine ⟨hyielded, ?_, ?_⟩
    · rw [pending_cursorReader, hleft]
    · rw [pending_cursorReader, Cursor.length_pending]

/-- A segment with a value, a tombstone and an empty value. -/
def mixed : Segment where
  generation := 3
  data := [1, 7, 3, 5]
  slots := [0, 1, 2, 0x8000000000000003, 3, 4, 4]
  dataCrc := none

/-- The tombstone is found, a key between two others is not, and inverted bounds leave nothing to read. -/
theorem lookups_exact_mixed :
    Ascending mixed.entries ∧ mixed.find? [3] = some (.tombstone [3]) ∧ mixed.find? [4] = none ∧
      mixed.rangeEntries ⟨some [2], none⟩ = [.tombstone [3], .put [5] []] ∧
      (mixed.cursorReader.steps 1 (Cursor.ofRange mixed ⟨some [2], none⟩)).2.remaining = 1 ∧
      (mixed.cursorReader.steps 0 (Cursor.ofRange mixed ⟨some [5], some [3]⟩)).2.remaining = 0 := by
  have hentries : mixed.entries = [.put [1] [7], .tombstone [3], .put [5] []] := by decide
  have hasc : Ascending mixed.entries := by
    rw [hentries]
    unfold Ascending
    decide
  obtain ⟨hfound, hmissing, hranges⟩ := lookups_exact hasc
  have hfrom := hranges ⟨some [2], none⟩
  have hinverted := (hranges ⟨some [5], some [3]⟩).2 0
  simp only [hentries] at hfound hmissing hfrom hinverted
  refine ⟨hasc, (hfound _ _).2 (by decide), (hmissing _).2 (by decide), hfrom.1, ?_, ?_⟩
  · obtain ⟨-, hleft, hcount⟩ := hfrom.2 1
    rw [hcount, hleft]
    decide
  · obtain ⟨-, hleft, hcount⟩ := hinverted
    rw [hcount, hleft]
    decide

end LsmTree.Segment
