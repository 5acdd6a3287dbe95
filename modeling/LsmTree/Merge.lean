import LsmTree.Reader

/-!
# Merging sorted sources

A merge reads several sources, newest first, as one. It holds the sources that still have an entry,
each with that entry taken out already: its head. The next version is the head of the least key, of
the newest source among those that have it; every older source standing on that key is moved past it
unseen. A tombstone that wins is not shown, but still hides the versions it beat.

* **`Merge.splitLeast`** finds the winner, **`Merge.passOver`** moves the older sources past its key,
  **`Merge.pop?`** takes the winner out;
* **`Merge.reader`** — a merge is a source again, so merges nest.

The sources are not assumed to be sorted: `passOver` looks at the heads afresh after each source it
moved, and stops as soon as the least of them has another key.
-/

namespace LsmTree

/-- A source with its next entry taken out. -/
structure Head (σ : Type) where
  entry : Entry
  source : σ

/-- The sources that still have an entry, newest first. -/
structure Merge (σ : Type) where
  heads : List (Head σ)

namespace Merge

variable {σ : Type}

/-- Asks a source for its next entry; a source that has none is let go. -/
def head? (reader : Reader σ) (source : σ) : Option (Head σ) :=
  match reader.next source with
  | (some entry, rest) => some ⟨entry, rest⟩
  | (none, _) => none

/-- Merges the sources, newest first; each is asked for its first entry now. -/
def ofSources (reader : Reader σ) (sources : List σ) : Merge σ :=
  ⟨sources.filterMap (head? reader)⟩

/-- The count of sources that still have an entry. -/
def liveSources (merge : Merge σ) : Nat := merge.heads.length

/-- The head of the least key, the newest of them, between the newer heads and the older ones. -/
def splitLeast : List (Head σ) → Option (List (Head σ) × Head σ × List (Head σ))
  | [] => none
  | head :: rest =>
    match splitLeast rest with
    | none => some ([], head, [])
    | some (newer, least, older) =>
      -- Of equal keys the newer one wins.
      if least.entry.key < head.entry.key then some (head :: newer, least, older)
      else some ([], head, rest)

/-- The head after the next entry of its source, if there is one. -/
def advance (reader : Reader σ) (head : Head σ) : List (Head σ) :=
  (head? reader head.source).toList

/-- A bound on how many entries the heads and their sources still hold. -/
def weight (reader : Reader σ) : List (Head σ) → Nat
  | [] => 0
  | head :: rest => reader.remaining head.source + 1 + weight reader rest

theorem eq_append_of_splitLeast {heads newer older : List (Head σ)} {least : Head σ}
    (h : splitLeast heads = some (newer, least, older)) : heads = newer ++ least :: older := by
  induction heads generalizing newer with
  | nil => simp [splitLeast] at h
  | cons head rest ih =>
    simp only [splitLeast] at h
    split at h
    · next hnone =>
      cases h
      cases rest with
      | nil => rfl
      | cons a r =>
        simp only [splitLeast] at hnone
        split at hnone
        · cases hnone
        · split at hnone <;> cases hnone
    · next hsome =>
      split at h
      · cases h
        simp [ih hsome]
      · cases h
        rfl

theorem splitLeast_eq_none {heads : List (Head σ)} : splitLeast heads = none ↔ heads = [] := by
  cases heads with
  | nil => simp [splitLeast]
  | cons head rest =>
    simp only [splitLeast, reduceCtorEq, iff_false]
    split
    · simp
    · split <;> simp

@[simp] theorem weight_nil (reader : Reader σ) : weight reader [] = 0 := rfl

@[simp] theorem weight_cons (reader : Reader σ) (head : Head σ) (heads : List (Head σ)) :
    weight reader (head :: heads) = reader.remaining head.source + 1 + weight reader heads := rfl

@[simp] theorem weight_append (reader : Reader σ) (a b : List (Head σ)) :
    weight reader (a ++ b) = weight reader a + weight reader b := by
  induction a with
  | nil => simp
  | cons head rest ih => simp [ih, Nat.add_assoc]

theorem weight_head?_le (reader : Reader σ) (source : σ) :
    weight reader (head? reader source).toList ≤ reader.remaining source := by
  unfold head?
  split
  · next entry rest h =>
    have hnext : (reader.next source).1 = some entry := by rw [h]
    have := reader.remaining_next hnext
    rw [h] at this
    dsimp only at this
    simp
    omega
  · simp

theorem weight_advance_le (reader : Reader σ) (head : Head σ) :
    weight reader (advance reader head) ≤ reader.remaining head.source :=
  weight_head?_le reader head.source

/-- Moves every head past `key`, one after the other, as long as the least head stands on it. -/
def passOver (reader : Reader σ) (key : Bytes) (heads : List (Head σ)) : List (Head σ) :=
  match _h : splitLeast heads with
  | none => heads
  | some (newer, least, older) =>
    if least.entry.key = key then
      passOver reader key (newer ++ advance reader least ++ older)
    else heads
termination_by weight reader heads
decreasing_by
  have := weight_advance_le reader least
  rw [eq_append_of_splitLeast _h]
  simp
  omega

theorem passOver_nil (reader : Reader σ) (key : Bytes) : passOver reader key [] = [] := by
  simp [passOver, splitLeast]

theorem passOver_of_eq {reader : Reader σ} {heads newer older : List (Head σ)} {least : Head σ}
    {key : Bytes} (h : splitLeast heads = some (newer, least, older))
    (hkey : least.entry.key = key) :
    passOver reader key heads = passOver reader key (newer ++ advance reader least ++ older) := by
  rw [passOver]
  split
  · simp_all
  · simp_all

theorem passOver_of_ne {reader : Reader σ} {heads newer older : List (Head σ)} {least : Head σ}
    {key : Bytes} (h : splitLeast heads = some (newer, least, older))
    (hkey : least.entry.key ≠ key) : passOver reader key heads = heads := by
  rw [passOver]
  split
  · simp_all
  · simp_all

/-- The next version of the least key, tombstones included, and the heads after it. A head newer than
the winner has a greater key, so only the older ones can stand on the winner's key. -/
def pop? (reader : Reader σ) (heads : List (Head σ)) : Option (Entry × List (Head σ)) :=
  match splitLeast heads with
  | none => none
  | some (newer, winner, older) =>
    some (winner.entry, newer ++ advance reader winner ++ passOver reader winner.entry.key older)

theorem weight_passOver_le (reader : Reader σ) (key : Bytes) (heads : List (Head σ)) :
    weight reader (passOver reader key heads) ≤ weight reader heads := by
  fun_induction passOver reader key heads with
  | case1 => simp
  | case2 heads newer least older h hkey ih =>
    have := weight_advance_le reader least
    rw [eq_append_of_splitLeast h]
    simp at ih ⊢
    omega
  | case3 => simp

theorem weight_pop?_lt {reader : Reader σ} {heads rest : List (Head σ)} {entry : Entry}
    (h : pop? reader heads = some (entry, rest)) : weight reader rest < weight reader heads := by
  unfold pop? at h
  split at h
  · cases h
  · next newer winner older hsplit =>
    cases h
    have h1 := weight_advance_le reader winner
    have h2 := weight_passOver_le reader winner.entry.key older
    rw [eq_append_of_splitLeast hsplit]
    simp
    omega

/-- The next live version and the heads after it; versions that are tombstones are passed by. -/
def nextLive (reader : Reader σ) (heads : List (Head σ)) : Option Entry × List (Head σ) :=
  match _h : pop? reader heads with
  | none => (none, heads)
  | some (entry, rest) =>
    if entry.isTombstone then nextLive reader rest else (some entry, rest)
termination_by weight reader heads
decreasing_by exact weight_pop?_lt _h

theorem nextLive_of_none {reader : Reader σ} {heads : List (Head σ)}
    (h : pop? reader heads = none) : nextLive reader heads = (none, heads) := by
  rw [nextLive]
  split
  · rfl
  · simp_all

theorem nextLive_of_tombstone {reader : Reader σ} {heads rest : List (Head σ)} {entry : Entry}
    (h : pop? reader heads = some (entry, rest))
    (htomb : entry.isTombstone) : nextLive reader heads = nextLive reader rest := by
  rw [nextLive]
  split
  · simp_all
  · simp_all

theorem nextLive_of_live {reader : Reader σ} {heads rest : List (Head σ)} {entry : Entry}
    (h : pop? reader heads = some (entry, rest))
    (hlive : ¬ entry.isTombstone) : nextLive reader heads = (some entry, rest) := by
  rw [nextLive]
  split
  · simp_all
  · simp_all

theorem weight_nextLive_lt {reader : Reader σ} {heads : List (Head σ)} {entry : Entry}
    (h : (nextLive reader heads).1 = some entry) :
    weight reader (nextLive reader heads).2 < weight reader heads := by
  fun_induction nextLive reader heads with
  | case1 => simp at h
  | case2 heads head rest hpop htomb ih => exact Nat.lt_trans (ih h) (weight_pop?_lt hpop)
  | case3 heads head rest hpop htomb => exact weight_pop?_lt hpop

/-- A merge is read by its live versions. -/
def reader (source : Reader σ) : Reader (Merge σ) where
  next merge :=
    let step := nextLive source merge.heads
    (step.1, ⟨step.2⟩)
  remaining merge := weight source merge.heads
  remaining_next h := weight_nextLive_lt h

end Merge

end LsmTree
