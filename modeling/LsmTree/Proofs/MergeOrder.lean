import LsmTree.Merge
import LsmTree.Proofs.Lookup
import LsmTree.Proofs.Pending

/-!
# What a merge yields

A merge of sources whose keys never descend is described key by key: for each key it yields the live
entries that the newest source with that key has for it, in the order of that source, and the keys come
in order.

* **`newest`** — the entries of a key in the first of several lists that has it;
* **`splitLeast_least`**, **`pendings_passOver`** — what one step of the merge takes out, and what it
  moves past unseen;
* **`versions_winners`**, **`winners_nonDescending`** — the entries taken out, tombstones included;
* **`versions_pending`**, **`pending_nonDescending`** — those of them that are shown;
* **`mem_pending_iff`**, **`pending_ascending`** — for ascending sources, whose merge is ascending again;
* **`eq_flatMap_versions`**, **`drain_ofSources`** — so the whole output is known, key by key.
-/

namespace LsmTree

/-- No key comes before the one it follows. -/
def NonDescending (entries : List Entry) : Prop :=
  entries.Pairwise (fun a b => ¬ b.key < a.key)

theorem Ascending.nonDescending {entries : List Entry} (h : Ascending entries) :
    NonDescending entries :=
  h.imp fun hlt => Bytes.lt_asymm hlt

/-! ## The entries of one key -/

/-- The entries of a key, in order. -/
def versions (key : Bytes) (entries : List Entry) : List Entry :=
  entries.filter fun entry => entry.key = key

/-- The entries of a key in the first of the lists that has it. -/
def newest (key : Bytes) : List (List Entry) → List Entry
  | [] => []
  | entries :: older =>
    if versions key entries = [] then newest key older else versions key entries

@[simp] theorem versions_nil (key : Bytes) : versions key [] = [] := rfl

theorem versions_cons (key : Bytes) (entry : Entry) (entries : List Entry) :
    versions key (entry :: entries) =
      if entry.key = key then entry :: versions key entries else versions key entries := by
  simp [versions, List.filter_cons]

theorem mem_versions {key : Bytes} {entry : Entry} {entries : List Entry} :
    entry ∈ versions key entries ↔ entry ∈ entries ∧ entry.key = key := by
  simp [versions]

theorem versions_eq_nil {key : Bytes} {entries : List Entry} :
    versions key entries = [] ↔ ∀ entry ∈ entries, entry.key ≠ key := by
  simp [versions]

@[simp] theorem newest_nil (key : Bytes) : newest key [] = [] := rfl

theorem newest_cons (key : Bytes) (entries : List Entry) (older : List (List Entry)) :
    newest key (entries :: older) =
      if versions key entries = [] then newest key older else versions key entries := rfl

theorem newest_append (key : Bytes) (newer older : List (List Entry)) :
    newest key (newer ++ older) = if newest key newer = [] then newest key older else newest key newer := by
  induction newer with
  | nil => simp
  | cons entries newer ih =>
    rw [List.cons_append, newest_cons, newest_cons, ih]
    by_cases h : versions key entries = []
    · simp [h]
    · simp [h]

theorem newest_eq_nil {key : Bytes} {lists : List (List Entry)}
    (h : ∀ entries ∈ lists, versions key entries = []) : newest key lists = [] := by
  induction lists with
  | nil => rfl
  | cons entries older ih =>
    rw [newest_cons, if_pos (h entries (by simp)), ih fun l hl => h l (by simp [hl])]

theorem newest_filter_nonempty (key : Bytes) (lists : List (List Entry)) :
    newest key (lists.filter fun entries => !entries.isEmpty) = newest key lists := by
  induction lists with
  | nil => rfl
  | cons entries older ih =>
    cases entries with
    | nil => simpa [newest_cons] using ih
    | cons entry rest => simp [newest_cons, ih]

/-- Lists without entries do not change what is found first. -/
theorem findSome?_filter_nonempty (lists : List (List Entry)) (key : Bytes) :
    (lists.filter fun entries => !entries.isEmpty).findSome? (fun entries => lookup entries key) =
      lists.findSome? fun entries => lookup entries key := by
  induction lists with
  | nil => rfl
  | cons entries rest ih =>
    cases entries with
    | nil => exact ih
    | cons entry later =>
      simp only [List.filter_cons, List.isEmpty_cons, Bool.not_false, if_true,
        List.findSome?_cons, ih]

theorem mem_of_mem_newest {key : Bytes} {entry : Entry} {lists : List (List Entry)}
    (h : entry ∈ newest key lists) : ∃ entries ∈ lists, entry ∈ entries := by
  induction lists with
  | nil => simp at h
  | cons entries older ih =>
    rw [newest_cons] at h
    split at h
    · obtain ⟨l, hl, hmem⟩ := ih h
      exact ⟨l, by simp [hl], hmem⟩
    · exact ⟨entries, by simp, (mem_versions.1 h).1⟩

/-! ## Taking a key out of a list -/

/-- The entries of the other keys. -/
def without (key : Bytes) (entries : List Entry) : List Entry :=
  entries.filter fun entry => entry.key ≠ key

theorem without_cons_self {key : Bytes} {entry : Entry} (h : entry.key = key) (rest : List Entry) :
    without key (entry :: rest) = without key rest := by
  simp [without, h]

theorem without_eq_self {key : Bytes} {entries : List Entry} (h : ∀ entry ∈ entries, entry.key ≠ key) :
    without key entries = entries := by
  simpa [without] using h

theorem versions_without_self (key : Bytes) (entries : List Entry) :
    versions key (without key entries) = [] := by
  rw [versions_eq_nil]
  intro entry hmem
  simpa using (List.mem_filter.1 hmem).2

theorem versions_without_of_ne {key other : Bytes} (h : other ≠ key) (entries : List Entry) :
    versions other (without key entries) = versions other entries := by
  rw [versions, versions, without, List.filter_filter]
  refine List.filter_congr fun entry _ => ?_
  by_cases hkey : entry.key = other
  · simp [hkey, h]
  · simp [hkey]

theorem newest_map_without_of_ne {key other : Bytes} (h : other ≠ key) (lists : List (List Entry)) :
    newest other (lists.map (without key)) = newest other lists := by
  induction lists with
  | nil => rfl
  | cons entries older ih =>
    rw [List.map_cons, newest_cons, newest_cons, versions_without_of_ne h, ih]

theorem newest_map_without_self (key : Bytes) (lists : List (List Entry)) :
    newest key (lists.map (without key)) = [] := by
  apply newest_eq_nil
  intro entries hmem
  obtain ⟨l, -, rfl⟩ := List.mem_map.1 hmem
  exact versions_without_self key l

namespace Merge

variable {σ : Type} {reader : Reader σ}

/-! ## Heads and what they hold -/

/-- The entries that a head stands for: the one taken out and those still to come. -/
def heldBy (reader : Reader σ) (head : Head σ) : List Entry :=
  head.entry :: reader.pending head.source

/-- What each of the heads holds. -/
def pendings (reader : Reader σ) (heads : List (Head σ)) : List (List Entry) :=
  heads.map (heldBy reader)

@[simp] theorem pendings_append (reader : Reader σ) (a b : List (Head σ)) :
    pendings reader (a ++ b) = pendings reader a ++ pendings reader b := List.map_append

@[simp] theorem pendings_cons (reader : Reader σ) (head : Head σ) (heads : List (Head σ)) :
    pendings reader (head :: heads) = heldBy reader head :: pendings reader heads := rfl

/-- A source asked for its next entry holds on to what it has still to yield, and is let go if that is
nothing. -/
theorem pendings_head? (reader : Reader σ) (source : σ) :
    pendings reader (head? reader source).toList =
      [reader.pending source].filter fun entries => !entries.isEmpty := by
  unfold head?
  split
  · next entry rest hnext =>
    have hpending : reader.pending source = entry :: reader.pending rest := by
      have hsome : reader.pending source = entry :: reader.pending (reader.next source).2 :=
        reader.pending_of_some (by rw [hnext])
      rwa [hnext] at hsome
    simp [pendings, heldBy, hpending]
  · next rest hnext =>
    have hpending : reader.pending source = [] := reader.pending_of_none (by rw [hnext])
    simp [pendings, hpending]

theorem pendings_ofSources (reader : Reader σ) (sources : List σ) :
    pendings reader (ofSources reader sources).heads =
      (sources.map reader.pending).filter fun entries => !entries.isEmpty := by
  unfold ofSources
  induction sources with
  | nil => rfl
  | cons source rest ih =>
    have hcons : (source :: rest).filterMap (head? reader) =
        (head? reader source).toList ++ rest.filterMap (head? reader) := by
      cases h : head? reader source <;> simp [h]
    have hfilter : ((source :: rest).map reader.pending).filter (fun entries => !entries.isEmpty) =
        [reader.pending source].filter (fun entries => !entries.isEmpty) ++
          (rest.map reader.pending).filter fun entries => !entries.isEmpty := by
      rw [List.map_cons, ← List.singleton_append, List.filter_append]
    dsimp only at ih ⊢
    rw [hcons, pendings_append, pendings_head?, ih, hfilter]

/-! ## One step -/

/-- The least head comes before the newer ones and not after the older ones. -/
theorem splitLeast_least {heads newer older : List (Head σ)} {least : Head σ}
    (h : splitLeast heads = some (newer, least, older)) :
    (∀ head ∈ newer, least.entry.key < head.entry.key) ∧
      ∀ head ∈ older, ¬ head.entry.key < least.entry.key := by
  induction heads generalizing newer older least with
  | nil => simp [splitLeast] at h
  | cons head rest ih =>
    simp only [splitLeast] at h
    split at h
    · cases h
      simp
    · next newer' least' older' hrest =>
      obtain ⟨hnewer, holder⟩ := ih hrest
      split at h
      · next hlt =>
        cases h
        refine ⟨fun other hmem => ?_, holder⟩
        rcases List.mem_cons.1 hmem with rfl | hmem
        · exact hlt
        · exact hnewer other hmem
      · next hnlt =>
        cases h
        refine ⟨by simp, fun other hmem hlt => ?_⟩
        rw [eq_append_of_splitLeast hrest] at hmem
        -- The head is not after the least of the rest, so nothing of the rest is before it.
        rcases List.mem_append.1 hmem with hmem | hmem
        · exact hnlt (Bytes.lt_trans (hnewer other hmem) hlt)
        · rcases List.mem_cons.1 hmem with rfl | hmem
          · exact hnlt hlt
          · rcases List.le_iff_lt_or_eq.1 (List.not_lt.1 (holder other hmem)) with hle | heq
            · exact hnlt (Bytes.lt_trans hle hlt)
            · exact hnlt (heq ▸ hlt)

theorem not_lt_of_mem_heldBy {head : Head σ} (h : NonDescending (heldBy reader head)) {entry : Entry}
    (hmem : entry ∈ heldBy reader head) : ¬ entry.key < head.entry.key := by
  rcases List.mem_cons.1 hmem with rfl | hmem
  · exact Bytes.lt_irrefl _
  · exact (List.pairwise_cons.1 h).1 entry hmem

theorem lt_of_mem_heldBy {head : Head σ} (h : NonDescending (heldBy reader head)) {key : Bytes}
    (hlt : key < head.entry.key) {entry : Entry} (hmem : entry ∈ heldBy reader head) :
    key < entry.key := by
  rcases List.le_iff_lt_or_eq.1 (List.not_lt.1 (not_lt_of_mem_heldBy h hmem)) with hle | heq
  · exact Bytes.lt_trans hlt hle
  · exact heq ▸ hlt

theorem ne_of_lt {a b : Bytes} (h : a < b) : b ≠ a := by
  rintro rfl
  exact Bytes.lt_irrefl _ h

/-- **Moving past a key** takes the entries of that key out of every head, and lets go of the heads that
hold nothing else. Induction along the heads moved. -/
theorem pendings_passOver {key : Bytes} {heads : List (Head σ)}
    (hsorted : ∀ entries ∈ pendings reader heads, NonDescending entries)
    (hkey : ∀ head ∈ heads, ¬ head.entry.key < key) :
    pendings reader (passOver reader key heads) =
      ((pendings reader heads).map (without key)).filter fun entries => !entries.isEmpty := by
  fun_induction passOver reader key heads with
  | case1 heads h =>
    rw [splitLeast_eq_none.1 h]
    rfl
  | case2 heads newer least older h hleast ih =>
    have hheads := eq_append_of_splitLeast h
    subst hheads
    have hheld : NonDescending (heldBy reader least) := hsorted _ (by simp)
    -- What is left of the least head has the same entries apart from the one of the key.
    have hadvance : ((pendings reader (advance reader least)).map (without key)).filter
          (fun entries => !entries.isEmpty) =
        [without key (heldBy reader least)].filter fun entries => !entries.isEmpty := by
      rw [advance, pendings_head?, heldBy, without_cons_self hleast]
      cases hrest : reader.pending least.source with
      | nil => rfl
      | cons entry rest => rfl
    rw [ih]
    · simp only [pendings_append, pendings_cons, List.map_append, List.map_cons, List.filter_append]
      rw [hadvance, List.append_assoc, ← List.filter_append, List.singleton_append]
    · intro entries hmem
      simp only [pendings_append, List.mem_append] at hmem
      rcases hmem with (hmem | hmem) | hmem
      · exact hsorted entries (by simp [hmem])
      · rw [advance, pendings_head?] at hmem
        rw [List.mem_singleton.1 (List.mem_filter.1 hmem).1]
        exact (List.pairwise_cons.1 hheld).2
      · exact hsorted entries (by simp [hmem])
    · intro head hmem
      simp only [List.mem_append] at hmem
      rcases hmem with (hmem | hmem) | hmem
      · exact hkey head (by simp [hmem])
      · have hin : heldBy reader head ∈ pendings reader (advance reader least) :=
          List.mem_map_of_mem hmem
        rw [advance, pendings_head?] at hin
        have hpending := List.mem_singleton.1 (List.mem_filter.1 hin).1
        have hlater : head.entry ∈ reader.pending least.source := hpending ▸ List.mem_cons_self
        exact hleast ▸ (List.pairwise_cons.1 hheld).1 _ hlater
      · exact hkey head (by simp [hmem])
  | case3 heads newer least older h hleast =>
    obtain ⟨hnewer, holder⟩ := splitLeast_least h
    have hheads := eq_append_of_splitLeast h
    -- The least head is past the key, so all heads are, and nothing has to be taken out.
    have hlt : key < least.entry.key := by
      rcases List.le_iff_lt_or_eq.1 (List.not_lt.1 (hkey least (by simp [hheads]))) with hlt | heq
      · exact hlt
      · exact absurd heq.symm hleast
    have hall : ∀ head ∈ heads, key < head.entry.key := by
      intro head hmem
      rw [hheads] at hmem
      rcases List.mem_append.1 hmem with hmem | hmem
      · exact Bytes.lt_trans hlt (hnewer head hmem)
      · rcases List.mem_cons.1 hmem with rfl | hmem
        · exact hlt
        · rcases List.le_iff_lt_or_eq.1 (List.not_lt.1 (holder head hmem)) with hle | heq
          · exact Bytes.lt_trans hlt hle
          · exact heq ▸ hlt
    have hsame : (pendings reader heads).map (without key) = pendings reader heads := by
      refine (List.map_congr_left fun entries hmem => ?_).trans (List.map_id _)
      obtain ⟨head, hhead, rfl⟩ := List.mem_map.1 hmem
      exact without_eq_self fun entry he =>
        ne_of_lt (lt_of_mem_heldBy (hsorted _ hmem) (hall head hhead) he)
    rw [hsame, eq_comm, List.filter_eq_self]
    intro entries hmem
    obtain ⟨head, -, rfl⟩ := List.mem_map.1 hmem
    rfl

/-- **What a step leaves:** the winner's source goes on, and the winner's key is taken out of the older
heads. The newer ones do not have it. -/
theorem pendings_pop? {heads rest : List (Head σ)} {entry : Entry}
    (hsorted : ∀ entries ∈ pendings reader heads, NonDescending entries)
    (hpop : pop? reader heads = some (entry, rest)) :
    ∃ (newer older : List (List Entry)) (later : List Entry),
      pendings reader heads = newer ++ (entry :: later) :: older ∧
      pendings reader rest =
        newer ++ ([later] ++ older.map (without entry.key)).filter (fun entries => !entries.isEmpty) ∧
      (∀ entries ∈ newer, ∀ e ∈ entries, entry.key < e.key) ∧
      ∀ entries ∈ older, ∀ e ∈ entries, ¬ e.key < entry.key := by
  unfold pop? at hpop
  split at hpop
  · cases hpop
  · next newer winner older hsplit =>
    cases hpop
    obtain ⟨hnewer, holder⟩ := splitLeast_least hsplit
    have hheads := eq_append_of_splitLeast hsplit
    subst hheads
    refine ⟨pendings reader newer, pendings reader older, reader.pending winner.source,
      by simp [heldBy], ?_, ?_, ?_⟩
    · rw [pendings_append, pendings_append, advance, pendings_head?,
        pendings_passOver (fun entries hmem => hsorted entries (by simp [hmem])) holder,
        List.append_assoc, ← List.filter_append]
    · intro entries hmem e he
      obtain ⟨head, hhead, rfl⟩ := List.mem_map.1 hmem
      exact lt_of_mem_heldBy (hsorted _ (by simp [hmem])) (hnewer head hhead) he
    · intro entries hmem e he hlt
      obtain ⟨head, hhead, rfl⟩ := List.mem_map.1 hmem
      exact holder head hhead (by
        rcases List.le_iff_lt_or_eq.1 (List.not_lt.1
            (not_lt_of_mem_heldBy (hsorted _ (by simp [hmem])) he)) with hle | heq
        · exact Bytes.lt_trans hle hlt
        · exact heq ▸ hlt)

theorem nonDescending_pop? {heads rest : List (Head σ)} {entry : Entry}
    (hsorted : ∀ entries ∈ pendings reader heads, NonDescending entries)
    (hpop : pop? reader heads = some (entry, rest)) :
    ∀ entries ∈ pendings reader rest, NonDescending entries := by
  obtain ⟨newer, older, later, hheads, hrest, -, -⟩ := pendings_pop? hsorted hpop
  rw [hheads] at hsorted
  intro entries hmem
  rw [hrest] at hmem
  rcases List.mem_append.1 hmem with hmem | hmem
  · exact hsorted entries (by simp [hmem])
  · rcases List.mem_append.1 (List.mem_filter.1 hmem).1 with hmem | hmem
    · rw [List.mem_singleton.1 hmem]
      exact (List.pairwise_cons.1 (hsorted (entry :: later) (by simp))).2
    · obtain ⟨l, hl, rfl⟩ := List.mem_map.1 hmem
      exact (hsorted l (by simp [hl])).filter _

/-! ## All steps -/

/-- The versions that a merge takes out one after the other, tombstones included. -/
def winners (reader : Reader σ) (heads : List (Head σ)) : List Entry :=
  match _h : pop? reader heads with
  | none => []
  | some (entry, rest) => entry :: winners reader rest
termination_by weight reader heads
decreasing_by exact weight_pop?_lt _h

theorem winners_of_none {heads : List (Head σ)} (h : pop? reader heads = none) :
    winners reader heads = [] := by
  rw [winners]
  split
  · rfl
  · simp_all

theorem winners_of_some {heads rest : List (Head σ)} {entry : Entry}
    (h : pop? reader heads = some (entry, rest)) :
    winners reader heads = entry :: winners reader rest := by
  rw [winners]
  split
  · simp_all
  · simp_all

theorem pop?_eq_none {heads : List (Head σ)} : pop? reader heads = none ↔ heads = [] := by
  unfold pop?
  cases h : splitLeast heads with
  | none => simpa using splitLeast_eq_none.1 h
  | some split =>
    have : heads ≠ [] := fun hnil => by simp [splitLeast_eq_none.2 hnil] at h
    simpa using this

/-- **For each key the newest source decides.** Induction over the steps. -/
theorem versions_winners {heads : List (Head σ)}
    (hsorted : ∀ entries ∈ pendings reader heads, NonDescending entries) (key : Bytes) :
    versions key (winners reader heads) = newest key (pendings reader heads) := by
  fun_induction winners reader heads with
  | case1 heads hpop =>
    rw [pop?_eq_none.1 hpop]
    rfl
  | case2 heads entry rest hpop ih =>
    obtain ⟨newer, older, later, hheads, hrest, hnewer, -⟩ := pendings_pop? hsorted hpop
    rw [versions_cons, ih (nonDescending_pop? hsorted hpop), hrest, hheads, newest_append,
      newest_filter_nonempty, List.singleton_append, newest_append, newest_cons, newest_cons]
    by_cases hkey : entry.key = key
    · subst hkey
      have hnone : newest entry.key newer = [] := newest_eq_nil fun entries hmem =>
        versions_eq_nil.2 fun e he => ne_of_lt (hnewer entries hmem e he)
      rw [hnone, newest_map_without_self, versions_cons, if_pos rfl]
      cases hlater : versions entry.key later <;> simp
    · rw [newest_map_without_of_ne (Ne.symm hkey), versions_cons, if_neg hkey, if_neg hkey]

theorem mem_of_mem_winners {heads : List (Head σ)}
    (hsorted : ∀ entries ∈ pendings reader heads, NonDescending entries) {entry : Entry}
    (hmem : entry ∈ winners reader heads) : ∃ entries ∈ pendings reader heads, entry ∈ entries := by
  have hversion : entry ∈ versions entry.key (winners reader heads) := mem_versions.2 ⟨hmem, rfl⟩
  rw [versions_winners hsorted] at hversion
  exact mem_of_mem_newest hversion

/-- **The keys come in order.** -/
theorem winners_nonDescending {heads : List (Head σ)}
    (hsorted : ∀ entries ∈ pendings reader heads, NonDescending entries) :
    NonDescending (winners reader heads) := by
  fun_induction winners reader heads with
  | case1 heads hpop => exact List.Pairwise.nil
  | case2 heads entry rest hpop ih =>
    have hkept := nonDescending_pop? hsorted hpop
    refine List.pairwise_cons.2 ⟨fun e he hlt => ?_, ih hkept⟩
    obtain ⟨newer, older, later, hheads, hrest, hnewer, holder⟩ := pendings_pop? hsorted hpop
    obtain ⟨entries, hentries, he⟩ := mem_of_mem_winners hkept he
    rw [hrest] at hentries
    rcases List.mem_append.1 hentries with hin | hin
    · exact Bytes.lt_asymm (hnewer entries hin e he) hlt
    · rcases List.mem_append.1 (List.mem_filter.1 hin).1 with hin | hin
      · have hhead : NonDescending (entry :: later) := hsorted _ (by simp [hheads])
        exact (List.pairwise_cons.1 hhead).1 e (List.mem_singleton.1 hin ▸ he) hlt
      · obtain ⟨l, hl, rfl⟩ := List.mem_map.1 hin
        exact holder l hl e (List.mem_filter.1 he).1 hlt

/-! ## What is shown -/

/-- The next shown version is the first live one of those still to be taken out. -/
theorem filter_winners (reader : Reader σ) (heads : List (Head σ)) :
    (winners reader heads).filter (fun entry => !entry.isTombstone) =
      match (nextLive reader heads).1 with
      | none => []
      | some entry =>
        entry :: (winners reader (nextLive reader heads).2).filter fun e => !e.isTombstone := by
  fun_induction nextLive reader heads with
  | case1 heads hpop =>
    rw [winners_of_none hpop]
    rfl
  | case2 heads entry rest hpop htomb ih =>
    rw [winners_of_some hpop, List.filter_cons, if_neg (by simp [htomb])]
    exact ih
  | case3 heads entry rest hpop htomb =>
    rw [winners_of_some hpop, List.filter_cons, if_pos (by simp [htomb])]

theorem nextLive_snd_of_none {heads : List (Head σ)} (h : (nextLive reader heads).1 = none) :
    (nextLive reader heads).2 = [] := by
  fun_induction nextLive reader heads with
  | case1 heads hpop => exact pop?_eq_none.1 hpop
  | case2 heads entry rest hpop htomb ih => exact ih h
  | case3 heads entry rest hpop htomb => cases h

/-- A merge shows the versions taken out that are not tombstones. -/
theorem pending_eq_filter (reader : Reader σ) (heads : List (Head σ)) :
    (Merge.reader reader).pending ⟨heads⟩ =
      (winners reader heads).filter fun entry => !entry.isTombstone := by
  apply (Merge.reader reader).pending_eq fun merge =>
    (winners reader merge.heads).filter fun entry => !entry.isTombstone
  · intro merge
    rw [filter_winners]
    show (nextLive reader merge.heads).1 = _
    cases (nextLive reader merge.heads).1 <;> rfl
  · intro merge
    rw [filter_winners reader merge.heads]
    show (winners reader (nextLive reader merge.heads).2).filter _ = _
    cases hlive : (nextLive reader merge.heads).1 with
    | none =>
      rw [nextLive_snd_of_none hlive, winners_of_none (pop?_eq_none.2 rfl)]
      rfl
    | some entry => rfl

/-- **The live versions of the newest source.** For each key a merge shows what the newest source with
that key has for it, without the tombstones. -/
theorem versions_pending {heads : List (Head σ)}
    (hsorted : ∀ entries ∈ pendings reader heads, NonDescending entries) (key : Bytes) :
    versions key ((Merge.reader reader).pending ⟨heads⟩) =
      (newest key (pendings reader heads)).filter fun entry => !entry.isTombstone := by
  rw [pending_eq_filter, versions, List.filter_filter, ← versions_winners hsorted, versions,
    List.filter_filter]
  exact List.filter_congr fun entry _ => Bool.and_comm _ _

theorem pending_nonDescending {heads : List (Head σ)}
    (hsorted : ∀ entries ∈ pendings reader heads, NonDescending entries) :
    NonDescending ((Merge.reader reader).pending ⟨heads⟩) := by
  rw [pending_eq_filter]
  exact (winners_nonDescending hsorted).filter _

/-! ## Ascending sources -/

/-- In an ascending list a key has one version at most. -/
theorem versions_of_ascending {entries : List Entry} (h : Ascending entries) (key : Bytes) :
    versions key entries = (lookup entries key).toList := by
  induction entries with
  | nil => rfl
  | cons entry rest ih =>
    obtain ⟨hlater, hrest⟩ := List.pairwise_cons.1 h
    rw [versions_cons, lookup_cons]
    by_cases hkey : entry.key = key
    · have hnone : versions key rest = [] :=
        versions_eq_nil.2 fun e he => hkey ▸ ne_of_lt (hlater e he)
      simp [hkey, hnone]
    · simp [hkey, ih hrest]

/-- In ascending lists the newest versions of a key are found by a lookup in one list after the other. -/
theorem newest_of_ascending {lists : List (List Entry)} (h : ∀ entries ∈ lists, Ascending entries)
    (key : Bytes) :
    newest key lists = (lists.findSome? fun entries => lookup entries key).toList := by
  induction lists with
  | nil => rfl
  | cons entries older ih =>
    rw [newest_cons, versions_of_ascending (h entries (by simp)), List.findSome?_cons,
      ih fun l hl => h l (by simp [hl])]
    cases lookup entries key <;> simp

theorem ascending_of_versions {entries : List Entry} (h : NonDescending entries)
    (hone : ∀ key, (versions key entries).length ≤ 1) : Ascending entries := by
  induction entries with
  | nil => exact List.Pairwise.nil
  | cons entry rest ih =>
    obtain ⟨hlater, hrest⟩ := List.pairwise_cons.1 h
    refine List.pairwise_cons.2 ⟨fun e he => ?_, ih hrest fun key => ?_⟩
    · rcases List.le_iff_lt_or_eq.1 (List.not_lt.1 (hlater e he)) with hlt | heq
      · exact hlt
      · have hlength := hone entry.key
        have hmem : e ∈ versions entry.key rest := mem_versions.2 ⟨he, heq.symm⟩
        have := List.length_pos_of_mem hmem
        rw [versions_cons, if_pos rfl, List.length_cons] at hlength
        omega
    · have hlength := hone key
      rw [versions_cons] at hlength
      split at hlength
      · rw [List.length_cons] at hlength
        omega
      · exact hlength

/-- **A merge of ascending sources is ascending.** -/
theorem pending_ascending {heads : List (Head σ)}
    (hsorted : ∀ entries ∈ pendings reader heads, Ascending entries) :
    Ascending ((Merge.reader reader).pending ⟨heads⟩) := by
  have hnon : ∀ entries ∈ pendings reader heads, NonDescending entries :=
    fun entries hmem => (hsorted entries hmem).nonDescending
  refine ascending_of_versions (pending_nonDescending hnon) fun key => ?_
  rw [versions_pending hnon, newest_of_ascending hsorted]
  refine Nat.le_trans (List.length_filter_le _ _) ?_
  cases (pendings reader heads).findSome? fun entries => lookup entries key <;> simp

/-- **A merge of ascending sources shows the newest version of each key,** unless it is a tombstone. -/
theorem mem_pending_iff {heads : List (Head σ)}
    (hsorted : ∀ entries ∈ pendings reader heads, Ascending entries) {entry : Entry} :
    entry ∈ (Merge.reader reader).pending ⟨heads⟩ ↔
      (pendings reader heads).findSome? (fun entries => lookup entries entry.key) = some entry ∧
        entry.isTombstone = false := by
  have hnon : ∀ entries ∈ pendings reader heads, NonDescending entries :=
    fun entries hmem => (hsorted entries hmem).nonDescending
  have hversion : entry ∈ (Merge.reader reader).pending ⟨heads⟩ ↔
      entry ∈ versions entry.key ((Merge.reader reader).pending ⟨heads⟩) := by
    simp [mem_versions]
  rw [hversion, versions_pending hnon, newest_of_ascending hsorted, List.mem_filter,
    Option.mem_toList, Bool.not_eq_true']

/-- A lookup in the merge of ascending sources finds what the newest source with the key has, unless that
is a tombstone. -/
theorem lookup_pending {heads : List (Head σ)}
    (hsorted : ∀ entries ∈ pendings reader heads, Ascending entries) (key : Bytes) :
    lookup ((Merge.reader reader).pending ⟨heads⟩) key =
      ((pendings reader heads).findSome? fun entries => lookup entries key).filter
        fun entry => !entry.isTombstone := by
  have hnon : ∀ entries ∈ pendings reader heads, NonDescending entries :=
    fun entries hmem => (hsorted entries hmem).nonDescending
  -- An ascending list has for a key what a lookup finds, and no more.
  have hone := versions_pending hnon key
  rw [versions_of_ascending (pending_ascending hsorted), newest_of_ascending hsorted] at hone
  cases hfound : (pendings reader heads).findSome? fun entries => lookup entries key with
  | none => simpa [hfound] using hone
  | some entry =>
    rw [hfound] at hone
    cases htomb : entry.isTombstone <;> simpa [htomb, Option.filter] using hone

end Merge

/-! ## Lists key by key -/

/-- A list that begins with no key before the given one holds the entries of that key first. -/
theorem versions_append_without {key : Bytes} {entries : List Entry} (h : NonDescending entries)
    (hfirst : ∀ entry ∈ entries, ¬ entry.key < key) :
    versions key entries ++ without key entries = entries := by
  induction entries with
  | nil => rfl
  | cons entry rest ih =>
    obtain ⟨hlater, hrest⟩ := List.pairwise_cons.1 h
    by_cases hkey : entry.key = key
    · rw [versions_cons, if_pos hkey, without_cons_self hkey, List.cons_append,
        ih hrest fun e he => hfirst e (by simp [he])]
    · -- The first entry is past the key, so all of them are.
      have hpast : ∀ e ∈ entry :: rest, e.key ≠ key := by
        rintro e he rfl
        rcases List.mem_cons.1 he with rfl | he
        · exact hkey rfl
        · exact hkey (Bytes.eq_of_not_lt (hfirst entry (by simp)) (hlater e he))
      rw [versions_eq_nil.2 hpast, without_eq_self hpast, List.nil_append]

/-- **A list whose keys never descend** is known from the entries of each key. -/
theorem eq_flatMap_versions {entries : List Entry} {keys : List Bytes} (h : NonDescending entries)
    (hkeys : keys.Pairwise (· < ·)) (hmem : ∀ entry ∈ entries, entry.key ∈ keys) :
    entries = keys.flatMap fun key => versions key entries := by
  induction keys generalizing entries with
  | nil => exact List.eq_nil_iff_forall_not_mem.2 fun entry hentry => List.not_mem_nil (hmem entry hentry)
  | cons key later ih =>
    obtain ⟨hlater, hrest⟩ := List.pairwise_cons.1 hkeys
    have hfirst : ∀ entry ∈ entries, ¬ entry.key < key := by
      intro entry hentry hlt
      rcases List.mem_cons.1 (hmem entry hentry) with heq | hin
      · exact Bytes.lt_irrefl _ (heq ▸ hlt)
      · exact Bytes.lt_asymm (hlater _ hin) hlt
    have hothers : without key entries = later.flatMap fun other => versions other entries := by
      have hin : ∀ entry ∈ without key entries, entry.key ∈ later := by
        intro entry hentry
        obtain ⟨hentry, hne⟩ := List.mem_filter.1 hentry
        exact (List.mem_cons.1 (hmem entry hentry)).resolve_left (by simpa using hne)
      refine (ih (h.filter _) hrest hin).trans ?_
      rw [List.flatMap_def, List.flatMap_def]
      refine congrArg List.flatten (List.map_congr_left fun other hother => ?_)
      exact versions_without_of_ne (Merge.ne_of_lt (hlater other hother)) entries
    rw [List.flatMap_cons, ← hothers, versions_append_without h hfirst]

/-- Some entries have keys that can be listed, each once, in ascending order. -/
theorem exists_keys (entries : List Entry) : ∃ keys : List Bytes, keys.Pairwise (· < ·) ∧
    ∀ key, key ∈ keys ↔ ∃ entry ∈ entries, entry.key = key := by
  -- A table that takes the entries one after the other keeps one of each key, in order.
  have htable : ∃ table : List Entry, Ascending table ∧
      ∀ key, lookup table key ≠ none ↔ ∃ entry ∈ entries, entry.key = key := by
    induction entries with
    | nil => exact ⟨[], List.Pairwise.nil, by simp⟩
    | cons entry rest ih =>
      obtain ⟨table, hasc, hkeys⟩ := ih
      refine ⟨insertEntry entry table, ascending_insertEntry hasc, fun key => ?_⟩
      rw [lookup_insertEntry]
      by_cases hkey : entry.key = key
      · simp [hkey]
      · simp [hkey, hkeys]
  obtain ⟨table, hasc, hkeys⟩ := htable
  refine ⟨table.map Entry.key, List.pairwise_map.2 hasc, fun key => ?_⟩
  rw [← hkeys key, Ne, lookup_eq_none]
  simp

namespace Merge

variable {σ : Type} {reader : Reader σ}

/-! ## The whole output -/

/-- **What a merge yields.** Of sources whose keys never descend, newest first, it yields key by key, in
ascending order, the live entries that the newest source with the key has for it, in the order of that
source; no tombstone, and nothing that older sources have for the key. If the keys of each source ascend,
those of the merge do, and it has for each key what the newest source with the key has, unless that is a
tombstone. -/
theorem drain_ofSources (reader : Reader σ) (sources : List σ)
    (hsorted : ∀ source ∈ sources, NonDescending (reader.drain source).1) :
    let lists := sources.map fun source => (reader.drain source).1
    let output := ((Merge.reader reader).drain (ofSources reader sources)).1
    (∃ keys : List Bytes, keys.Pairwise (· < ·) ∧
      (∀ key, key ∈ keys ↔ ∃ entries ∈ lists, ∃ entry ∈ entries, entry.key = key) ∧
      output = keys.flatMap fun key => (newest key lists).filter fun entry => !entry.isTombstone) ∧
    ((∀ source ∈ sources, Ascending (reader.drain source).1) → Ascending output ∧
      ∀ key, lookup output key = (lists.findSome? fun entries => lookup entries key).filter
        fun entry => !entry.isTombstone) := by
  intro lists output
  have hheads : pendings reader (ofSources reader sources).heads =
      lists.filter fun entries => !entries.isEmpty := pendings_ofSources reader sources
  have hmem : ∀ entries ∈ pendings reader (ofSources reader sources).heads, ∃ source ∈ sources,
      (reader.drain source).1 = entries := by
    rw [hheads]
    exact fun entries hentries => List.mem_map.1 (List.mem_filter.1 hentries).1
  have hnon : ∀ entries ∈ pendings reader (ofSources reader sources).heads, NonDescending entries := by
    intro entries hentries
    obtain ⟨source, hsource, rfl⟩ := hmem entries hentries
    exact hsorted source hsource
  have hversions : ∀ key, versions key output =
      (newest key lists).filter fun entry => !entry.isTombstone := by
    intro key
    rw [← newest_filter_nonempty key lists, ← hheads]
    exact versions_pending hnon key
  refine ⟨?_, fun hascending => ?_⟩
  · obtain ⟨keys, hkeys, hoccurs⟩ := exists_keys lists.flatten
    have hall : ∀ key, key ∈ keys ↔ ∃ entries ∈ lists, ∃ entry ∈ entries, entry.key = key := by
      intro key
      rw [hoccurs]
      constructor
      · rintro ⟨entry, hentry, hkey⟩
        obtain ⟨entries, hentries, hin⟩ := List.mem_flatten.1 hentry
        exact ⟨entries, hentries, entry, hin, hkey⟩
      · rintro ⟨entries, hentries, entry, hin, hkey⟩
        exact ⟨entry, List.mem_flatten.2 ⟨entries, hentries, hin⟩, hkey⟩
    have hshown : ∀ entry ∈ output, entry.key ∈ keys := by
      intro entry hentry
      have hversion : entry ∈ versions entry.key output := mem_versions.2 ⟨hentry, rfl⟩
      rw [hversions] at hversion
      obtain ⟨entries, hentries, hin⟩ := mem_of_mem_newest (List.mem_filter.1 hversion).1
      exact (hall _).2 ⟨entries, hentries, entry, hin, rfl⟩
    refine ⟨keys, hkeys, hall, ?_⟩
    have hsplit := eq_flatMap_versions (pending_nonDescending hnon) hkeys hshown
    exact hsplit.trans (congrArg keys.flatMap (funext hversions))
  · have hasc : ∀ entries ∈ pendings reader (ofSources reader sources).heads, Ascending entries := by
      intro entries hentries
      obtain ⟨source, hsource, rfl⟩ := hmem entries hentries
      exact hascending source hsource
    refine ⟨pending_ascending hasc, fun key => (lookup_pending hasc key).trans ?_⟩
    rw [hheads, findSome?_filter_nonempty]

/-- Three sources: one that has key 2 deleted, one with two versions of key 1, and an older one. -/
def overlapping : List (List Entry) :=
  [[.tombstone [2], .put [4] []], [.put [1] [7], .put [1] [8], .put [2] [9]],
    [.put [1] [0], .put [2] [1], .put [3] [2]]]

/-- Both versions of key 1 come from the second source, and key 2 is not shown. -/
theorem drain_ofSources_overlapping :
    (∀ source ∈ overlapping, NonDescending (Reader.list.drain source).1) ∧
    ∃ keys : List Bytes, keys.Pairwise (· < ·) ∧
      (∀ key, key ∈ keys ↔ ∃ entries ∈ overlapping, ∃ entry ∈ entries, entry.key = key) ∧
      ((Merge.reader Reader.list).drain (ofSources Reader.list overlapping)).1 =
        keys.flatMap fun key => (newest key overlapping).filter fun entry => !entry.isTombstone := by
  have hread : ∀ source : List Entry, (Reader.list.drain source).1 = source := fun source => by
    rw [Reader.drain_list]
  have hsorted : ∀ source ∈ overlapping, NonDescending (Reader.list.drain source).1 := by
    simp only [hread]
    unfold NonDescending
    decide
  have hlists : (overlapping.map fun source => (Reader.list.drain source).1) = overlapping := by
    simp [hread]
  have hoverlapping := (drain_ofSources Reader.list overlapping hsorted).1
  rw [hlists] at hoverlapping
  exact ⟨hsorted, hoverlapping⟩

end Merge

end LsmTree
