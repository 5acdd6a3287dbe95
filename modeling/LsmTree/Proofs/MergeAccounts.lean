import LsmTree.Proofs.LiveMerge

/-!
# Accounting for a merge

A merge of sources in any order, with keys that go up and down and occur again, is still exact about what it
takes from whom. A source that was moved on may come to stand on any key, even one that was passed already;
what carries the account is not the order of keys but the ranks of the sources, which never change.

* **`Reader.Maps`** — reading sources of one kind stands for reading those of another, and so does merging
  them: this is how sources can be given their ranks, by **`Reader.ranked`**;
* **`Merge.Round`**, **`Merge.rounds`** — the steps of a merge with all that each of them takes, the winner
  first;
* **`Merge.heldOf_rounds`** — of every rank, the rounds take what the heads hold, in that order;
* **`Merge.drain_accounts`** — a merge takes each entry of each source once, and only a winner's tombstones
  and versions older than the winner's are not shown.
-/

namespace LsmTree

/-! ## Sources that stand for others -/

namespace Reader

variable {σ τ : Type} {reader : Reader σ} {other : Reader τ} {stands : τ → σ}

/-- Each step of a source is a step of what it stands for. -/
structure Maps (other : Reader τ) (reader : Reader σ) (stands : τ → σ) : Prop where
  yields : ∀ source, (other.next source).1 = (reader.next (stands source)).1
  leaves : ∀ source, stands (other.next source).2 = (reader.next (stands source)).2

theorem Maps.drain (h : other.Maps reader stands) (source : τ) :
    (other.drain source).1 = (reader.drain (stands source)).1 ∧
      stands (other.drain source).2 = (reader.drain (stands source)).2 := by
  fun_induction Reader.drain other source with
  | case1 source hnone =>
    rw [drain_of_none ((h.yields source).symm.trans hnone)]
    exact ⟨rfl, h.leaves source⟩
  | case2 source entry hsome rest ih =>
    rw [drain_of_some ((h.yields source).symm.trans hsome), ← h.leaves source]
    exact ⟨congrArg (entry :: ·) ih.1, ih.2⟩

theorem Maps.steps (h : other.Maps reader stands) (count : Nat) (source : τ) :
    (other.steps count source).1 = (reader.steps count (stands source)).1 ∧
      stands (other.steps count source).2 = (reader.steps count (stands source)).2 := by
  induction count generalizing source with
  | zero => exact ⟨rfl, rfl⟩
  | succ count ih =>
    obtain ⟨hyielded, hleft⟩ := ih (other.next source).2
    rw [h.leaves] at hyielded hleft
    rw [Reader.steps, Reader.steps, h.yields]
    exact ⟨congrArg (_ :: ·) hyielded, hleft⟩

/-- Reads sources that come with a rank, which they keep. -/
def ranked (reader : Reader σ) : Reader (σ × Nat) where
  next source := ((reader.next source.1).1, (reader.next source.1).2, source.2)
  remaining source := reader.remaining source.1
  remaining_next h := reader.remaining_next h

theorem maps_ranked (reader : Reader σ) : reader.ranked.Maps reader Prod.fst :=
  ⟨fun _ => rfl, fun _ => rfl⟩

theorem pending_ranked (reader : Reader σ) (source : σ × Nat) :
    reader.ranked.pending source = reader.pending source.1 :=
  (reader.maps_ranked.drain source).1

end Reader

namespace Merge

section Mapping

variable {σ τ : Type} {reader : Reader σ} {other : Reader τ} {stands : τ → σ}

/-- The head with what its source stands for. -/
def mapHead (stands : τ → σ) (head : Head τ) : Head σ := ⟨head.entry, stands head.source⟩

/-- The merge of what the sources stand for. -/
def map (stands : τ → σ) (merge : Merge τ) : Merge σ := ⟨merge.heads.map (mapHead stands)⟩

theorem map_head? (h : other.Maps reader stands) (source : τ) :
    (head? other source).map (mapHead stands) = head? reader (stands source) := by
  have hyields := h.yields source
  have hleaves := h.leaves source
  unfold head?
  cases hother : other.next source with
  | mk entry rest =>
    cases hreader : reader.next (stands source) with
    | mk entry' rest' =>
      rw [hother, hreader] at hyields hleaves
      obtain rfl : entry = entry' := hyields
      obtain rfl : stands rest = rest' := hleaves
      cases entry <;> rfl

theorem map_ofSources (h : other.Maps reader stands) (sources : List τ) :
    map stands (ofSources other sources) = ofSources reader (sources.map stands) := by
  rw [map, ofSources, ofSources, List.map_filterMap, List.filterMap_map]
  congr 2
  exact funext fun source => map_head? h source

theorem map_advance (h : other.Maps reader stands) (head : Head τ) :
    (advance other head).map (mapHead stands) = advance reader (mapHead stands head) := by
  rw [advance, advance, mapHead, ← map_head? h]
  cases head? other head.source <;> rfl

theorem splitLeast_map (stands : τ → σ) (heads : List (Head τ)) :
    splitLeast (heads.map (mapHead stands)) = (splitLeast heads).map fun split =>
      (split.1.map (mapHead stands), mapHead stands split.2.1, split.2.2.map (mapHead stands)) := by
  induction heads with
  | nil => rfl
  | cons head rest ih =>
    rw [List.map_cons, splitLeast, splitLeast, ih]
    cases splitLeast rest with
    | none => rfl
    | some split =>
      obtain ⟨newer, least, older⟩ := split
      -- Only the entries are compared, and they are the same.
      show (if least.entry.key < head.entry.key then _ else _) = _
      by_cases hlt : least.entry.key < head.entry.key
      · simp [hlt]
      · simp [hlt]

theorem map_passOver (h : other.Maps reader stands) (key : Bytes) (heads : List (Head τ)) :
    (passOver other key heads).map (mapHead stands) =
      passOver reader key (heads.map (mapHead stands)) := by
  fun_induction passOver other key heads with
  | case1 heads hsplit =>
    rw [splitLeast_eq_none.1 hsplit]
    exact (passOver_nil reader key).symm
  | case2 heads newer least older hsplit hkey ih =>
    have hmapped := splitLeast_map stands heads
    rw [hsplit, Option.map_some] at hmapped
    rw [passOver_of_eq hmapped hkey, ih, List.map_append, List.map_append, map_advance h]
  | case3 heads newer least older hsplit hkey =>
    have hmapped := splitLeast_map stands heads
    rw [hsplit, Option.map_some] at hmapped
    exact (passOver_of_ne hmapped hkey).symm

theorem pop?_map (h : other.Maps reader stands) (heads : List (Head τ)) :
    pop? reader (heads.map (mapHead stands)) =
      (pop? other heads).map fun popped => (popped.1, popped.2.map (mapHead stands)) := by
  rw [pop?, pop?, splitLeast_map]
  cases splitLeast heads with
  | none => rfl
  | some split =>
    obtain ⟨newer, winner, older⟩ := split
    simp only [Option.map_some, List.map_append, map_advance h, map_passOver h]
    rfl

theorem nextLive_map (h : other.Maps reader stands) (heads : List (Head τ)) :
    nextLive reader (heads.map (mapHead stands)) =
      ((nextLive other heads).1, (nextLive other heads).2.map (mapHead stands)) := by
  have hmapped := pop?_map h
  fun_induction nextLive other heads with
  | case1 heads hpop =>
    exact nextLive_of_none (by rw [hmapped, hpop, Option.map_none])
  | case2 heads entry rest hpop htomb ih =>
    rw [nextLive_of_tombstone (by rw [hmapped, hpop, Option.map_some]) htomb, ih]
  | case3 heads entry rest hpop htomb =>
    exact nextLive_of_live (by rw [hmapped, hpop, Option.map_some]) htomb

/-- **Merging sources stands for merging what they stand for.** -/
theorem maps_reader (h : other.Maps reader stands) :
    (Merge.reader other).Maps (Merge.reader reader) (map stands) :=
  ⟨fun merge => (congrArg Prod.fst (nextLive_map h merge.heads)).symm,
    fun merge => congrArg Merge.mk (congrArg Prod.snd (nextLive_map h merge.heads)).symm⟩

end Mapping

/-! ## Rounds -/

/-- What one step of a merge takes: the winner, and after it the heads moved past unseen. -/
structure Round (σ : Type) where
  winner : Head σ
  passed : List (Head σ)

namespace Round

variable {σ : Type}

/-- All heads that the step takes, the winner first. -/
def taken (round : Round σ) : List (Head σ) := round.winner :: round.passed

/-- Whether the winner is shown, which a tombstone is not. -/
def shows (round : Round σ) : Bool := !round.winner.entry.isTombstone

end Round

section Rounds

variable {σ : Type} {reader : Reader σ} {heads rest : List (Head σ)} {round : Round σ}

/-- The heads that are moved past `key`, one after the other. -/
def passedOver (reader : Reader σ) (key : Bytes) (heads : List (Head σ)) : List (Head σ) :=
  match _h : splitLeast heads with
  | none => []
  | some (newer, least, older) =>
    if least.entry.key = key then
      least :: passedOver reader key (newer ++ advance reader least ++ older)
    else []
termination_by weight reader heads
decreasing_by
  have := weight_advance_le reader least
  rw [eq_append_of_splitLeast _h]
  simp
  omega

/-- The next step with all that it takes, and the heads after it. -/
def round? (reader : Reader σ) (heads : List (Head σ)) : Option (Round σ × List (Head σ)) :=
  match splitLeast heads with
  | none => none
  | some (newer, winner, older) =>
    some (⟨winner, passedOver reader winner.entry.key older⟩,
      newer ++ advance reader winner ++ passOver reader winner.entry.key older)

/-- A step takes out the winner's entry. -/
theorem pop?_eq_round? (reader : Reader σ) (heads : List (Head σ)) :
    pop? reader heads = (round? reader heads).map fun step => (step.1.winner.entry, step.2) := by
  rw [pop?, round?]
  cases splitLeast heads <;> rfl

theorem pop?_of_round? (h : round? reader heads = some (round, rest)) :
    pop? reader heads = some (round.winner.entry, rest) := by
  rw [pop?_eq_round?, h, Option.map_some]

theorem round?_eq_none : round? reader heads = none ↔ heads = [] := by
  rw [← @pop?_eq_none _ reader, pop?_eq_round?, Option.map_eq_none_iff]

/-- The steps of a merge, one after the other, to the end. -/
def rounds (reader : Reader σ) (heads : List (Head σ)) : List (Round σ) :=
  match _h : round? reader heads with
  | none => []
  | some (round, rest) => round :: rounds reader rest
termination_by weight reader heads
decreasing_by exact weight_pop?_lt (pop?_of_round? _h)

theorem rounds_of_none (h : round? reader heads = none) : rounds reader heads = [] := by
  rw [rounds]
  split
  · rfl
  · simp_all

theorem rounds_of_some (h : round? reader heads = some (round, rest)) :
    rounds reader heads = round :: rounds reader rest := by
  rw [rounds]
  split
  · simp_all
  · simp_all

theorem winners_eq_rounds (reader : Reader σ) (heads : List (Head σ)) :
    winners reader heads = (rounds reader heads).map fun round => round.winner.entry := by
  fun_induction rounds reader heads with
  | case1 heads hnone =>
    exact winners_of_none (by rw [pop?_eq_round?, hnone, Option.map_none])
  | case2 heads round rest hsome ih =>
    rw [winners_of_some (pop?_of_round? hsome), ih, List.map_cons]

/-- A merge shows the winners of the rounds that show theirs. -/
theorem pending_eq_rounds (reader : Reader σ) (heads : List (Head σ)) :
    (Merge.reader reader).pending ⟨heads⟩ =
      ((rounds reader heads).filter Round.shows).map fun round => round.winner.entry := by
  rw [pending_eq_filter, winners_eq_rounds, List.filter_map]
  rfl

/-- The rounds after the first `count` that show their winner. -/
def afterShown : (count : Nat) → List (Round σ) → List (Round σ)
  | 0, rounds => rounds
  | count + 1, rounds => afterShown count (rounds.dropWhile fun round => !round.shows).tail

theorem afterShown_suffix (count : Nat) (rounds : List (Round σ)) : afterShown count rounds <:+ rounds := by
  induction count generalizing rounds with
  | zero => exact List.suffix_refl _
  | succ count ih =>
    exact (ih _).trans ((List.tail_suffix _).trans (List.dropWhile_suffix _))

/-- To show the next entry, a merge goes on to the next round that shows its winner. -/
theorem rounds_nextLive (reader : Reader σ) (heads : List (Head σ)) :
    rounds reader (nextLive reader heads).2 =
      ((rounds reader heads).dropWhile fun round => !round.shows).tail := by
  fun_induction nextLive reader heads with
  | case1 heads hpop =>
    obtain rfl := pop?_eq_none.1 hpop
    rw [rounds_of_none (round?_eq_none.2 rfl)]
    rfl
  | case2 heads entry rest hpop htomb ih =>
    rw [pop?_eq_round?] at hpop
    obtain ⟨⟨round, rest⟩, hround, hstep⟩ := Option.map_eq_some_iff.1 hpop
    cases hstep
    rw [ih, rounds_of_some hround, List.dropWhile_cons_of_pos (by simp [Round.shows, htomb])]
  | case3 heads entry rest hpop htomb =>
    rw [pop?_eq_round?] at hpop
    obtain ⟨⟨round, rest⟩, hround, hstep⟩ := Option.map_eq_some_iff.1 hpop
    cases hstep
    rw [rounds_of_some hround, List.dropWhile_cons_of_neg (by simp [Round.shows, htomb]), List.tail_cons]

theorem rounds_steps (reader : Reader σ) (count : Nat) (merge : Merge σ) :
    rounds reader ((Merge.reader reader).steps count merge).2.heads =
      afterShown count (rounds reader merge.heads) := by
  induction count generalizing merge with
  | zero => rfl
  | succ count ih =>
    rw [afterShown, ← rounds_nextLive]
    exact ih ⟨(nextLive reader merge.heads).2⟩

theorem key_of_mem_passedOver {key : Bytes} {head : Head σ} (h : head ∈ passedOver reader key heads) :
    head.entry.key = key := by
  fun_induction passedOver reader key heads with
  | case1 heads hsplit => cases h
  | case2 heads newer least older hsplit hkey ih =>
    rcases List.mem_cons.1 h with rfl | h
    · exact hkey
    · exact ih h
  | case3 heads newer least older hsplit hkey => cases h

end Rounds

/-! ## Taking heads -/

-- `Takes reader heads taken rest`: the heads `taken` are taken from `heads` one after the other, each
-- giving way to the next head of its source, and `rest` are the heads after that.
inductive Takes {σ : Type} (reader : Reader σ) :
    List (Head σ) → List (Head σ) → List (Head σ) → Prop
  | refl (heads : List (Head σ)) : Takes reader heads [] heads
  | step {newer older taken rest : List (Head σ)} {head : Head σ}
      (h : Takes reader (newer ++ advance reader head ++ older) taken rest) :
      Takes reader (newer ++ head :: older) (head :: taken) rest

namespace Takes

variable {σ : Type} {reader : Reader σ} {heads middle rest taken taken' : List (Head σ)}

theorem trans (h : Takes reader heads taken middle) (h' : Takes reader middle taken' rest) :
    Takes reader heads (taken ++ taken') rest := by
  induction h with
  | refl => exact h'
  | step _ ih => exact .step (ih h')

theorem append_left (front : List (Head σ)) (h : Takes reader heads taken rest) :
    Takes reader (front ++ heads) taken (front ++ rest) := by
  induction h with
  | refl => exact .refl _
  | step _ ih =>
    rw [← List.append_assoc]
    exact .step (by simpa only [List.append_assoc] using ih)

theorem moves (h : Takes reader heads taken rest) : Moves reader (fun _ => True) heads rest := by
  induction h with
  | refl => exact .refl _
  | step _ ih => exact .step trivial ih

end Takes

section Taking

variable {σ : Type} {reader : Reader σ} {heads rest : List (Head σ)}

theorem takes_passOver (key : Bytes) (heads : List (Head σ)) :
    Takes reader heads (passedOver reader key heads) (passOver reader key heads) := by
  fun_induction passedOver reader key heads with
  | case1 heads hsplit =>
    rw [splitLeast_eq_none.1 hsplit, passOver_nil]
    exact .refl []
  | case2 heads newer least older hsplit hkey ih =>
    rw [passOver_of_eq hsplit hkey, eq_append_of_splitLeast hsplit]
    exact .step ih
  | case3 heads newer least older hsplit hkey =>
    rw [passOver_of_ne hsplit hkey]
    exact .refl heads

theorem takes_round? {round : Round σ} (h : round? reader heads = some (round, rest)) :
    Takes reader heads round.taken rest := by
  rw [round?] at h
  split at h
  · cases h
  · next newer winner older hsplit =>
    cases h
    rw [eq_append_of_splitLeast hsplit]
    exact .step ((takes_passOver winner.entry.key older).append_left _)

/-- The rounds take all there is. -/
theorem takes_rounds (reader : Reader σ) (heads : List (Head σ)) :
    Takes reader heads ((rounds reader heads).flatMap Round.taken) [] := by
  fun_induction rounds reader heads with
  | case1 heads hnone =>
    rw [round?_eq_none.1 hnone]
    exact .refl []
  | case2 heads round rest hsome ih =>
    rw [List.flatMap_cons]
    exact (takes_round? hsome).trans ih

end Taking

/-! ## Ranks -/

section Ranks

variable {σ : Type} {reader : Reader σ} {heads rest taken : List (Head (σ × Nat))} {rank : Nat}

/-- The entries taken out of the source of a rank, in order. -/
def entriesOf (rank : Nat) (heads : List (Head (σ × Nat))) : List Entry :=
  (heads.filter fun head => head.source.2 = rank).map Head.entry

/-- What the heads of a rank hold. -/
def heldOf (reader : Reader σ) (rank : Nat) (heads : List (Head (σ × Nat))) : List Entry :=
  (heads.filter fun head => head.source.2 = rank).flatMap (heldBy reader.ranked)

/-- The heads come in the order of their ranks, and no two have the same one. -/
def InRankOrder (heads : List (Head (σ × Nat))) : Prop :=
  (heads.map fun head => head.source.2).Pairwise (· < ·)

theorem sublist_ranks {may : Head (σ × Nat) → Prop} (h : Moves reader.ranked may heads rest) :
    (rest.map fun head => head.source.2).Sublist (heads.map fun head => head.source.2) :=
  h.sublist fun _ => rfl

theorem Moves.inRankOrder {may : Head (σ × Nat) → Prop} (h : Moves reader.ranked may heads rest)
    (horder : InRankOrder heads) : InRankOrder rest :=
  horder.sublist (sublist_ranks h)

theorem Moves.rank_lt {may : Head (σ × Nat) → Prop} {count : Nat}
    (h : Moves reader.ranked may heads rest) (hlt : ∀ head ∈ heads, head.source.2 < count) :
    ∀ head ∈ rest, head.source.2 < count := by
  intro head hmem
  obtain ⟨other, hother, hrank⟩ := List.mem_map.1 ((sublist_ranks h).subset (List.mem_map_of_mem hmem))
  exact hrank ▸ hlt other hother

/-- Only heads of ranks that there are can be taken. -/
theorem Takes.rank_of_mem (h : Takes reader.ranked heads taken rest) {head : Head (σ × Nat)}
    (hmem : head ∈ taken) : head.source.2 ∈ heads.map fun head => head.source.2 := by
  induction h with
  | refl => cases hmem
  | @step newer older taken rest moved h ih =>
    have hmoved : Moves reader.ranked (fun _ => True) (newer ++ moved :: older)
        (newer ++ advance reader.ranked moved ++ older) := .step trivial (.refl _)
    rcases List.mem_cons.1 hmem with rfl | hmem
    · simp
    · exact (sublist_ranks hmoved).subset (ih hmem)

theorem entriesOf_append (rank : Nat) (a b : List (Head (σ × Nat))) :
    entriesOf rank (a ++ b) = entriesOf rank a ++ entriesOf rank b := by
  simp [entriesOf]

theorem heldOf_append (reader : Reader σ) (rank : Nat) (a b : List (Head (σ × Nat))) :
    heldOf reader rank (a ++ b) = heldOf reader rank a ++ heldOf reader rank b := by
  simp [heldOf]

theorem heldOf_cons (reader : Reader σ) (rank : Nat) (head : Head (σ × Nat))
    (heads : List (Head (σ × Nat))) :
    heldOf reader rank (head :: heads) =
      (if head.source.2 = rank then heldBy reader.ranked head else []) ++ heldOf reader rank heads := by
  by_cases h : head.source.2 = rank
  · simp [heldOf, h]
  · simp [heldOf, h]

theorem heldOf_eq_nil : heldOf reader rank heads = [] ↔ ∀ head ∈ heads, head.source.2 ≠ rank := by
  simp [heldOf, heldBy]

/-- A source keeps its rank in the head that it is put in. -/
theorem rank_head? {source : σ × Nat} {head : Head (σ × Nat)}
    (h : head? reader.ranked source = some head) : head.source.2 = source.2 := by
  unfold head? at h
  split at h
  · next entry rest hnext =>
    cases h
    have hrest : rest = (reader.ranked.next source).2 := by rw [hnext]
    rw [hrest]
    rfl
  · cases h

/-- A source asked for its next entry is held by the head it is put in. -/
theorem heldOf_head? (reader : Reader σ) (rank : Nat) (source : σ × Nat) :
    heldOf reader rank (head? reader.ranked source).toList =
      if source.2 = rank then reader.pending source.1 else [] := by
  rw [← reader.pending_ranked source]
  have hpendings := pendings_head? reader.ranked source
  cases h : head? reader.ranked source with
  | none =>
    have hnone : reader.ranked.pending source = [] := by
      rw [h] at hpendings
      simpa using List.filter_eq_nil_iff.1 hpendings.symm
    rw [hnone, ite_self]
    rfl
  | some head =>
    have hheld : heldBy reader.ranked head = reader.ranked.pending source := by
      rw [h] at hpendings
      have hmem : heldBy reader.ranked head ∈
          [reader.ranked.pending source].filter fun entries => !entries.isEmpty :=
        hpendings ▸ List.mem_singleton_self _
      exact List.mem_singleton.1 (List.mem_filter.1 hmem).1
    rw [Option.toList_some, heldOf_cons, rank_head? h, hheld]
    exact List.append_nil _

/-- **Taking a head takes its entry** out of what its rank holds, from the front. -/
theorem heldOf_move {newer older : List (Head (σ × Nat))} {head : Head (σ × Nat)}
    (h : InRankOrder (newer ++ head :: older)) (rank : Nat) :
    heldOf reader rank (newer ++ head :: older) =
      entriesOf rank [head] ++
        heldOf reader rank (newer ++ advance reader.ranked head ++ older) := by
  rw [heldOf_append, heldOf_cons, heldOf_append, heldOf_append, advance, heldOf_head?]
  by_cases hrank : head.source.2 = rank
  · -- The newer heads have lesser ranks, so nothing stands before what this one holds.
    have hnewer : heldOf reader rank newer = [] := heldOf_eq_nil.2 fun other hmem hsame => by
      rw [InRankOrder, List.map_append, List.pairwise_append] at h
      have hlt := h.2.2 _ (List.mem_map_of_mem hmem) head.source.2 (by simp)
      omega
    rw [hnewer, if_pos hrank, if_pos hrank, heldBy, reader.pending_ranked]
    simp [entriesOf, hrank]
  · rw [if_neg hrank, if_neg hrank]
    simp [entriesOf, hrank]

/-- **The account:** of every rank, the heads hold what is taken of it, and after that what the heads to
come hold. Induction over the heads taken. -/
theorem Takes.heldOf_eq (h : Takes reader.ranked heads taken rest) (horder : InRankOrder heads)
    (rank : Nat) : heldOf reader rank heads = entriesOf rank taken ++ heldOf reader rank rest := by
  induction h with
  | refl => rfl
  | @step newer older taken rest head h ih =>
    have hhead : Takes reader.ranked (newer ++ head :: older) [head]
        (newer ++ advance reader.ranked head ++ older) := .step (.refl _)
    have hnext := hhead.moves.inRankOrder horder
    have hcons : entriesOf rank (head :: taken) = entriesOf rank [head] ++ entriesOf rank taken :=
      entriesOf_append rank [head] taken
    rw [heldOf_move horder, ih hnext, hcons, List.append_assoc]

theorem heldOf_rounds (horder : InRankOrder heads) (rank : Nat) :
    heldOf reader rank heads = entriesOf rank ((rounds reader.ranked heads).flatMap Round.taken) :=
  ((takes_rounds reader.ranked heads).heldOf_eq horder rank).trans (List.append_nil _)

/-- The heads moved past in a round have the winner's key, and come from older sources. -/
theorem passed_of_round? {round : Round (σ × Nat)}
    (h : round? reader.ranked heads = some (round, rest)) (horder : InRankOrder heads)
    {head : Head (σ × Nat)} (hmem : head ∈ round.passed) :
    head.entry.key = round.winner.entry.key ∧ round.winner.source.2 < head.source.2 := by
  rw [round?] at h
  split at h
  · cases h
  · next newer winner older hsplit =>
    cases h
    refine ⟨key_of_mem_passedOver hmem, ?_⟩
    rw [eq_append_of_splitLeast hsplit, InRankOrder, List.map_append, List.pairwise_append,
      List.map_cons, List.pairwise_cons] at horder
    exact horder.2.1.1 _ ((takes_passOver winner.entry.key older).rank_of_mem hmem)

theorem passed_of_mem_rounds (horder : InRankOrder heads) {round : Round (σ × Nat)}
    (hround : round ∈ rounds reader.ranked heads) {head : Head (σ × Nat)} (hmem : head ∈ round.passed) :
    head.entry.key = round.winner.entry.key ∧ round.winner.source.2 < head.source.2 := by
  fun_induction rounds reader.ranked heads with
  | case1 heads hnone => cases hround
  | case2 heads first rest hsome ih =>
    rcases List.mem_cons.1 hround with rfl | hround
    · exact passed_of_round? hsome horder hmem
    · exact ih ((takes_round? hsome).moves.inRankOrder horder) hround

/-- The ranks of the heads are those that hold entries. -/
theorem map_rank_eq (horder : InRankOrder heads) {count : Nat}
    (hlt : ∀ head ∈ heads, head.source.2 < count) :
    (heads.map fun head => head.source.2) =
      (List.range count).filter fun rank => !(heldOf reader rank heads).isEmpty := by
  refine List.Perm.eq_of_pairwise (fun a b _ _ hab hba => absurd hab (Nat.lt_asymm hba)) horder
    (List.pairwise_lt_range.filter _) ?_
  refine (List.perm_ext_iff_of_nodup (horder.imp Nat.ne_of_lt)
    (List.nodup_range.filter _)).2 fun rank => ?_
  simp only [List.mem_map, List.mem_filter, List.mem_range, Bool.not_eq_true', List.isEmpty_eq_false_iff,
    ne_eq, heldOf_eq_nil]
  constructor
  · rintro ⟨head, hmem, rfl⟩
    exact ⟨hlt head hmem, fun hnone => hnone head hmem rfl⟩
  · rintro ⟨-, hsome⟩
    simpa using hsome

/-- A head holds what its rank holds, which it does not share. -/
theorem heldOf_of_mem (horder : InRankOrder heads) {head : Head (σ × Nat)} (hmem : head ∈ heads) :
    heldOf reader head.source.2 heads = heldBy reader.ranked head := by
  obtain ⟨newer, older, rfl⟩ := List.append_of_mem hmem
  rw [InRankOrder, List.map_append, List.pairwise_append, List.map_cons, List.pairwise_cons] at horder
  have hnewer : heldOf reader head.source.2 newer = [] := heldOf_eq_nil.2 fun other hother =>
    Nat.ne_of_lt (horder.2.2 _ (List.mem_map_of_mem hother) _ List.mem_cons_self)
  have holder : heldOf reader head.source.2 older = [] := heldOf_eq_nil.2 fun other hother =>
    Nat.ne_of_gt (horder.2.1.1 _ (List.mem_map_of_mem hother))
  rw [heldOf_append, heldOf_cons, if_pos rfl, hnewer, holder, List.nil_append, List.append_nil]

/-- The heads hold, one after the other, what the ranks hold. -/
theorem pendings_eq_heldOf (horder : InRankOrder heads) {count : Nat}
    (hlt : ∀ head ∈ heads, head.source.2 < count) :
    pendings reader.ranked heads =
      ((List.range count).map fun rank => heldOf reader rank heads).filter
        fun entries => !entries.isEmpty := by
  rw [List.filter_map]
  show _ = ((List.range count).filter fun rank => !(heldOf reader rank heads).isEmpty).map _
  rw [← map_rank_eq horder hlt, List.map_map]
  exact List.map_congr_left fun head hmem => (heldOf_of_mem horder hmem).symm

end Ranks

/-! ## The whole merge -/

section Accounts

variable {σ : Type} {reader : Reader σ}

/-- Sources that are ranked by their places come in the order of their ranks. -/
theorem inRankOrder_ofSources (reader : Reader σ) (sources : List σ) :
    InRankOrder (ofSources reader.ranked sources.zipIdx).heads ∧
      ∀ head ∈ (ofSources reader.ranked sources.zipIdx).heads, head.source.2 < sources.length := by
  have hkept : ∀ ranked : List (σ × Nat),
      ((ranked.filterMap (head? reader.ranked)).map fun head => head.source.2).Sublist
        (ranked.map Prod.snd) := by
    intro ranked
    induction ranked with
    | nil => exact List.Sublist.refl _
    | cons source rest ih =>
      cases h : head? reader.ranked source with
      | none =>
        rw [List.filterMap_cons_none h]
        exact ih.cons _
      | some head =>
        rw [List.filterMap_cons_some h, List.map_cons, List.map_cons, rank_head? h]
        exact ih.cons_cons _
  have hsub := hkept sources.zipIdx
  rw [List.zipIdx_map_snd] at hsub
  refine ⟨(List.pairwise_lt_range' 1).sublist hsub, fun head hmem => ?_⟩
  have hmem := hsub.subset (List.mem_map_of_mem hmem)
  simpa using (List.mem_range'_1.1 hmem).2

/-- At the start each source's place holds all that the source has. -/
theorem heldOf_ofSources (reader : Reader σ) (sources : List σ) (rank : Nat) :
    heldOf reader rank (ofSources reader.ranked sources.zipIdx).heads =
      (sources.map reader.pending).getD rank [] := by
  have hshifted : ∀ start,
      heldOf reader rank (ofSources reader.ranked (sources.zipIdx start)).heads =
        if start ≤ rank then (sources.map reader.pending).getD (rank - start) [] else [] := by
    induction sources with
    | nil => simp [ofSources, heldOf]
    | cons source rest ih =>
      intro start
      have hcons : (ofSources reader.ranked ((source :: rest).zipIdx start)).heads =
          (head? reader.ranked (source, start)).toList ++
            (ofSources reader.ranked (rest.zipIdx (start + 1))).heads := by
        rw [List.zipIdx_cons, ofSources, ofSources]
        cases h : head? reader.ranked (source, start) <;> simp [h]
      rw [hcons, heldOf_append, heldOf_head?, ih]
      rcases Nat.lt_trichotomy start rank with hlt | rfl | hlt
      · have hsub : rank - start = rank - (start + 1) + 1 := by omega
        rw [if_neg (by simp; omega), if_pos (by omega), if_pos (by omega), hsub]
        rfl
      · rw [if_pos rfl, if_neg (by omega), if_pos (Nat.le_refl _), Nat.sub_self]
        simp
      · rw [if_neg (by simp; omega), if_neg (by omega), if_neg (by omega)]
        rfl
  simpa using hshifted 0

/-- The winners that rounds show. -/
def shown (rounds : List (Round σ)) : List (Head σ) := (rounds.filter Round.shows).map Round.winner

theorem shown_sublist (rounds : List (Round σ)) : (shown rounds).Sublist (rounds.flatMap Round.taken) := by
  induction rounds with
  | nil => exact List.Sublist.refl _
  | cons round rest ih =>
    have hrest := ih.trans (List.sublist_append_right round.passed _)
    rw [List.flatMap_cons, Round.taken, List.cons_append]
    cases hshows : round.shows with
    | true =>
      rw [shown, List.filter_cons_of_pos hshows, List.map_cons]
      exact hrest.cons_cons _
    | false =>
      rw [shown, List.filter_cons_of_neg (by simp [hshows])]
      exact hrest.cons _

/-- A winner is shown unless it is a tombstone. -/
theorem winner_mem_shown {rounds : List (Round σ)} {round : Round σ} (h : round ∈ rounds) :
    round.winner ∈ shown rounds ∨ round.winner.entry.isTombstone = true := by
  cases htomb : round.winner.entry.isTombstone with
  | true => exact .inr rfl
  | false => exact .inl (List.mem_map_of_mem (List.mem_filter.2 ⟨h, by simp [Round.shows, htomb]⟩))

/-- Of rounds that pass over nothing all live entries are shown. -/
theorem entriesOf_shown {rounds : List (Round (σ × Nat))} (h : ∀ round ∈ rounds, round.passed = [])
    (rank : Nat) :
    entriesOf rank (shown rounds) =
      (entriesOf rank (rounds.flatMap Round.taken)).filter fun entry => !entry.isTombstone := by
  induction rounds with
  | nil => rfl
  | cons round rest ih =>
    have hround : round.taken = [round.winner] := by rw [Round.taken, h round List.mem_cons_self]
    have hcons : shown (round :: rest) = (if round.shows then [round.winner] else []) ++ shown rest := by
      cases hshows : round.shows <;> simp [shown, hshows]
    rw [hcons, List.flatMap_cons, entriesOf_append, entriesOf_append, List.filter_append, hround,
      ih fun other hmem => h other (List.mem_cons_of_mem _ hmem)]
    congr 1
    by_cases hrank : round.winner.source.2 = rank
    · cases htomb : round.winner.entry.isTombstone <;> simp [entriesOf, Round.shows, hrank, htomb]
    · cases htomb : round.winner.entry.isTombstone <;> simp [entriesOf, Round.shows, hrank, htomb]

theorem mem_entriesOf {head : Head (σ × Nat)} {heads : List (Head (σ × Nat))} (hmem : head ∈ heads) :
    head.entry ∈ entriesOf head.source.2 heads :=
  List.mem_map_of_mem (List.mem_filter.2 ⟨hmem, by simp⟩)

/-- A merge that was read to its end has let go of all its sources. -/
theorem heads_drain (reader : Reader σ) (merge : Merge σ) :
    ((Merge.reader reader).drain merge).2.heads = [] := by
  fun_induction Reader.drain (Merge.reader reader) merge with
  | case1 merge hnone => exact nextLive_snd_of_none hnone
  | case2 merge entry hsome rest ih => exact ih

theorem pending_next (reader : Reader σ) (merge : Merge σ) :
    (Merge.reader reader).pending ((Merge.reader reader).next merge).2 =
      ((Merge.reader reader).pending merge).tail := by
  cases hnext : ((Merge.reader reader).next merge).1 with
  | none =>
    -- A merge that yields nothing has let go of all its sources.
    have hnone : ((Merge.reader reader).next merge).2 = ⟨[]⟩ :=
      congrArg Merge.mk (nextLive_snd_of_none hnext)
    have hempty : ((Merge.reader reader).next (⟨[]⟩ : Merge σ)).1 = none :=
      congrArg Prod.fst (nextLive_of_none (pop?_eq_none.2 rfl))
    rw [hnone, Reader.pending_of_none hempty, Reader.pending_of_none hnext, List.tail_nil]
  | some entry => rw [Reader.pending_of_some hnext, List.tail_cons]

theorem moves_steps (reader : Reader σ) (count : Nat) (merge : Merge σ) :
    Moves reader (fun _ => True) merge.heads ((Merge.reader reader).steps count merge).2.heads := by
  induction count generalizing merge with
  | zero => exact .refl _
  | succ count ih => exact (moves_nextLive merge.heads).trans (ih ⟨(nextLive reader merge.heads).2⟩)

theorem pendings_map_fst (reader : Reader σ) (heads : List (Head (σ × Nat))) :
    pendings reader (heads.map (mapHead Prod.fst)) = pendings reader.ranked heads := by
  rw [pendings, List.map_map]
  refine List.map_congr_left fun head _ => ?_
  show head.entry :: reader.pending head.source.1 = _
  rw [← reader.pending_ranked head.source, heldBy]

/-- If no two sources have a key in common, nothing is passed over. -/
theorem passed_eq_nil {lists : List (List Entry)} {rounds : List (Round (σ × Nat))}
    (htaken : ∀ rank, entriesOf rank (rounds.flatMap Round.taken) = lists.getD rank [])
    (hpassed : ∀ round ∈ rounds, ∀ head ∈ round.passed,
      head.entry.key = round.winner.entry.key ∧ round.winner.source.2 < head.source.2)
    (hdisjoint : lists.Pairwise fun newer older =>
      ∀ entry ∈ newer, ∀ other ∈ older, entry.key ≠ other.key) :
    ∀ round ∈ rounds, round.passed = [] := by
  intro round hround
  refine List.eq_nil_iff_forall_not_mem.2 fun head hmem => ?_
  obtain ⟨hkey, hlt⟩ := hpassed round hround head hmem
  -- Both entries are in the lists of their ranks, which differ.
  have hin : ∀ taken ∈ round.taken, ∃ h : taken.source.2 < lists.length,
      taken.entry ∈ lists[taken.source.2] := by
    intro taken htakes
    have hentry := mem_entriesOf (List.mem_flatMap.2 ⟨round, hround, htakes⟩)
    rw [htaken, List.getD_eq_getElem?_getD] at hentry
    by_cases hlt : taken.source.2 < lists.length
    · exact ⟨hlt, by simpa [hlt] using hentry⟩
    · simp [hlt] at hentry
  obtain ⟨hwinner, hwins⟩ := hin round.winner List.mem_cons_self
  obtain ⟨hhead, hpasses⟩ := hin head (List.mem_cons_of_mem _ hmem)
  exact List.pairwise_iff_getElem.1 hdisjoint _ _ hwinner hhead hlt _ hwins _ hpasses hkey.symm

/-- **A merge accounts for every entry,** whatever order its sources are in. Its history is the list of its
rounds, with the sources ranked by their places. Of each source the rounds take every entry once, in order;
what they show of it is in order too. What is taken and not shown is a tombstone that won its round, or was
passed over by a winner of its key from a source before it; so sources that share no key have all their live
entries shown. In the end no source is live, and after any number of steps those are live of which the
rounds that are left have still to take something. -/
theorem drain_accounts (reader : Reader σ) (sources : List σ) :
    let lists := sources.map reader.pending
    let history := rounds reader.ranked (ofSources reader.ranked sources.zipIdx).heads
    let drained := (Merge.reader reader).drain (ofSources reader sources)
    drained.1 = (shown history).map Head.entry ∧
    drained.2.liveSources = 0 ∧
    (∀ rank, entriesOf rank (history.flatMap Round.taken) = lists.getD rank []) ∧
    (∀ rank, (entriesOf rank (shown history)).Sublist (lists.getD rank [])) ∧
    (∀ round ∈ history, ∀ head ∈ round.taken,
      head = round.winner ∧ (head ∈ shown history ∨ head.entry.isTombstone = true) ∨
      head ∈ round.passed ∧ head.entry.key = round.winner.entry.key ∧
        round.winner.source.2 < head.source.2) ∧
    (lists.Pairwise (fun newer older => ∀ entry ∈ newer, ∀ other ∈ older, entry.key ≠ other.key) →
      ∀ rank, entriesOf rank (shown history) =
        (lists.getD rank []).filter fun entry => !entry.isTombstone) ∧
    ∀ count,
      let read := (Merge.reader reader).steps count (ofSources reader sources)
      let left := afterShown count history
      let unconsumed := fun rank => entriesOf rank (left.flatMap Round.taken)
      read.1 = (List.range count).map (fun i => drained.1[i]?) ∧
      left <:+ history ∧
      pendings reader read.2.heads =
        ((List.range sources.length).map unconsumed).filter (fun entries => !entries.isEmpty) ∧
      read.2.liveSources = (List.range sources.length).countP fun rank => !(unconsumed rank).isEmpty := by
  intro lists history drained
  obtain ⟨horder, hbound⟩ := inRankOrder_ofSources reader sources
  have hmaps := maps_reader reader.maps_ranked
  have hstart : map Prod.fst (ofSources reader.ranked sources.zipIdx) = ofSources reader sources := by
    rw [map_ofSources reader.maps_ranked, List.zipIdx_map_fst]
  have htaken : ∀ rank, entriesOf rank (history.flatMap Round.taken) = lists.getD rank [] := fun rank =>
    (heldOf_rounds horder rank).symm.trans (heldOf_ofSources reader sources rank)
  have hpassed : ∀ round ∈ history, ∀ head ∈ round.passed,
      head.entry.key = round.winner.entry.key ∧ round.winner.source.2 < head.source.2 :=
    fun round hround head hmem => passed_of_mem_rounds horder hround hmem
  refine ⟨?_, ?_, htaken, fun rank => ?_, fun round hround head hmem => ?_, fun hdisjoint rank => ?_,
    fun count => ?_⟩
  · have hdrained := (hmaps.drain (ofSources reader.ranked sources.zipIdx)).1
    rw [hstart] at hdrained
    rw [← hdrained, shown, List.map_map]
    exact pending_eq_rounds reader.ranked _
  · rw [Merge.liveSources, heads_drain, List.length_nil]
  · rw [← htaken]
    exact ((shown_sublist history).filter _).map _
  · rcases List.mem_cons.1 hmem with rfl | hmem
    · exact .inl ⟨rfl, winner_mem_shown hround⟩
    · exact .inr ⟨hmem, hpassed round hround head hmem⟩
  · rw [entriesOf_shown (passed_eq_nil htaken hpassed hdisjoint), htaken]
  · intro read left unconsumed
    have hyielded := ((Merge.reader reader).steps_eq _ (Merge.reader reader).next_fst
      (pending_next reader) count (ofSources reader sources)).1
    have hread := (hmaps.steps count (ofSources reader.ranked sources.zipIdx)).2
    rw [hstart] at hread
    have hmoves := moves_steps reader.ranked count (ofSources reader.ranked sources.zipIdx)
    -- The ranks stay in order, so each is held by at most one head.
    have horder' := hmoves.inRankOrder horder
    have hbound' := hmoves.rank_lt hbound
    have hholds : pendings reader read.2.heads =
        ((List.range sources.length).map unconsumed).filter fun entries => !entries.isEmpty := by
      rw [show read.2 = _ from hread.symm]
      refine (pendings_map_fst reader _).trans ((pendings_eq_heldOf horder' hbound').trans ?_)
      congr 2
      refine funext fun rank => ?_
      rw [heldOf_rounds horder' rank, rounds_steps]
    refine ⟨hyielded, afterShown_suffix count history, hholds, ?_⟩
    have hlength := congrArg List.length hholds
    rw [pendings, List.length_map, List.filter_map, List.length_map, ← List.countP_eq_length_filter]
      at hlength
    exact hlength

/-- Two lists in no order, without a common key; in the second a key comes twice. -/
def scattered : List (List Entry) :=
  [[.put [2] [1], .tombstone [1]], [.put [4] [2], .put [3] [3], .put [4] []]]

/-- All of the second list is shown, in its order, though its keys go down and up again. -/
theorem drain_accounts_scattered :
    scattered.Pairwise (fun newer older => ∀ entry ∈ newer, ∀ other ∈ older, entry.key ≠ other.key) ∧
      entriesOf 1 (shown (rounds Reader.list.ranked
        (ofSources Reader.list.ranked scattered.zipIdx).heads)) =
          [.put [4] [2], .put [3] [3], .put [4] []] := by
  have hdisjoint : scattered.Pairwise fun newer older =>
      ∀ entry ∈ newer, ∀ other ∈ older, entry.key ≠ other.key := by decide
  have hlists : scattered.map Reader.list.pending = scattered :=
    (List.map_congr_left fun entries _ => congrArg Prod.fst (Reader.drain_list entries)).trans
      (List.map_id scattered)
  obtain ⟨-, -, -, -, -, hlive, -⟩ := drain_accounts Reader.list scattered
  rw [hlists] at hlive
  exact ⟨hdisjoint, hlive hdisjoint 1⟩

end Accounts

end Merge

end LsmTree
