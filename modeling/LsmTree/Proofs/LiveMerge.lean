import LsmTree.Proofs.ReadPaths

/-!
# A merge over tables that are written meanwhile

A merge holds each of its sources by a head, an entry that is taken out already. What it would show of a
key, were it read to the end at once, changes when a table that it still reads is written, and only for
the key written:

* **`Merge.Moves`** — the heads that steps lead to, in the order of the heads they come from;
* **`Merge.shows`** — what a merge would show of a key, and **`Merge.next_some`**, **`Merge.next_none`** —
  what a step takes away of it;
* **`Merge.Follows`** — a merge of cursors over a range that has given some answers already: it is ready
  to go on past them, **`Follows.next`**, while tables are written, **`Follows.insert`**, and made,
  **`Follows.extends`**.
-/

namespace LsmTree

namespace Merge

variable {σ : Type} {reader : Reader σ}

/-! ## Heads that move -/

/-- The heads that come of some heads by asking the source of a head that may move for its next entry,
again and again; a head whose source has none is gone. -/
inductive Moves (reader : Reader σ) (may : Head σ → Prop) : List (Head σ) → List (Head σ) → Prop
  | refl (heads : List (Head σ)) : Moves reader may heads heads
  | step {newer older rest : List (Head σ)} {head : Head σ} (hmay : may head)
      (h : Moves reader may (newer ++ advance reader head ++ older) rest) :
      Moves reader may (newer ++ head :: older) rest

namespace Moves

variable {may may' : Head σ → Prop} {heads middle rest : List (Head σ)}

theorem trans (h : Moves reader may heads middle) (h' : Moves reader may middle rest) :
    Moves reader may heads rest := by
  induction h with
  | refl => exact h'
  | step hmay _ ih => exact .step hmay (ih h')

theorem mono (h : Moves reader may heads rest) (himp : ∀ head, may head → may' head) :
    Moves reader may' heads rest := by
  induction h with
  | refl => exact .refl _
  | step hmay _ ih => exact .step (himp _ hmay) ih

theorem append_left (front : List (Head σ)) (h : Moves reader may heads rest) :
    Moves reader may (front ++ heads) (front ++ rest) := by
  induction h with
  | refl => exact .refl _
  | step hmay _ ih =>
    rw [← List.append_assoc]
    exact .step hmay (by simpa only [List.append_assoc] using ih)

/-- What holds of heads and passes on to the next heads of their sources holds of the heads they come
to. -/
theorem forall_mem {holds : Head σ → Prop} (h : Moves reader may heads rest)
    (hadvance : ∀ head, may head → holds head → ∀ later ∈ advance reader head, holds later)
    (hheads : ∀ head ∈ heads, holds head) : ∀ head ∈ rest, holds head := by
  induction h with
  | refl => exact hheads
  | @step newer older rest moved hmay _ ih =>
    refine ih fun head hmem => ?_
    simp only [List.mem_append] at hmem
    rcases hmem with (hmem | hmem) | hmem
    · exact hheads head (by simp [hmem])
    · exact hadvance moved hmay (hheads moved (by simp)) head hmem
    · exact hheads head (by simp [hmem])

/-- A head that there is, and that is followed by another one whenever it moves, stays there in the end. -/
theorem exists_mem {holds : Head σ → Prop} (h : Moves reader may heads rest)
    (hadvance : ∀ head, may head → holds head → ∃ later ∈ advance reader head, holds later)
    (hheads : ∃ head ∈ heads, holds head) : ∃ head ∈ rest, holds head := by
  induction h with
  | refl => exact hheads
  | @step newer older rest moved hmay _ ih =>
    obtain ⟨head, hmem, hholds⟩ := hheads
    refine ih ?_
    rcases List.mem_append.1 hmem with hmem | hmem
    · exact ⟨head, by simp [hmem], hholds⟩
    · rcases List.mem_cons.1 hmem with rfl | hmem
      · obtain ⟨later, hlater, hholds'⟩ := hadvance head hmay hholds
        exact ⟨later, by simp [hlater], hholds'⟩
      · exact ⟨head, by simp [hmem], hholds⟩

/-- A mark that sources keep when they are read is found on the heads in the order it had. -/
theorem sublist {α : Type} {mark : σ → α} (h : Moves reader may heads rest)
    (hmark : ∀ source, mark (reader.next source).2 = mark source) :
    (rest.map fun head => mark head.source).Sublist (heads.map fun head => mark head.source) := by
  induction h with
  | refl => exact List.Sublist.refl _
  | @step newer older rest moved _ _ ih =>
    refine ih.trans ?_
    -- The head that moved keeps its mark if its source has a next entry, and is gone otherwise.
    have hadvance : ((advance reader moved).map fun head => mark head.source).Sublist
        [mark moved.source] := by
      unfold advance head?
      split
      · next entry source hnext =>
        have hsame : mark source = mark moved.source := by
          rw [← hmark moved.source, hnext]
        simp [hsame]
      · exact List.nil_sublist _
    simp only [List.map_append, List.map_cons, List.append_assoc]
    exact (List.Sublist.refl _).append (hadvance.append (List.Sublist.refl _))

end Moves

theorem moves_passOver (key : Bytes) (heads : List (Head σ)) :
    Moves reader (fun head => head.entry.key = key) heads (passOver reader key heads) := by
  fun_induction passOver reader key heads with
  | case1 heads => exact .refl heads
  | case2 heads newer least older h hkey ih =>
    rw [eq_append_of_splitLeast h]
    exact .step hkey ih
  | case3 heads => exact .refl heads

/-- Only heads that stand on the key of the entry taken out move. -/
theorem moves_pop? {heads rest : List (Head σ)} {entry : Entry}
    (h : pop? reader heads = some (entry, rest)) :
    Moves reader (fun head => head.entry.key = entry.key) heads rest := by
  unfold pop? at h
  split at h
  · cases h
  · next newer winner older hsplit =>
    cases h
    rw [eq_append_of_splitLeast hsplit]
    exact .step rfl ((moves_passOver winner.entry.key older).append_left _)

theorem moves_nextLive (heads : List (Head σ)) :
    Moves reader (fun _ => True) heads (nextLive reader heads).2 := by
  fun_induction nextLive reader heads with
  | case1 heads => exact .refl heads
  | case2 heads entry rest hpop htomb ih => exact ((moves_pop? hpop).mono fun _ _ => trivial).trans ih
  | case3 heads entry rest hpop htomb => exact (moves_pop? hpop).mono fun _ _ => trivial

/-! ## What a merge shows -/

/-- The value that a merge would show of a key, were it read to the end now. -/
def shows (reader : Reader σ) (merge : Merge σ) (key : Bytes) : Option Bytes :=
  (lookup ((Merge.reader reader).pending merge) key).bind Entry.value

/-- The first head that has a key decides what is shown of it. -/
theorem shows_eq {heads : List (Head σ)}
    (hsorted : ∀ entries ∈ pendings reader heads, Ascending entries) (key : Bytes) :
    shows reader ⟨heads⟩ key =
      ((pendings reader heads).findSome? fun entries => lookup entries key).bind Entry.value := by
  rw [shows, lookup_pending hsorted]
  cases (pendings reader heads).findSome? fun entries => lookup entries key with
  | none => rfl
  | some entry =>
    obtain ⟨key, _ | value⟩ := entry
    · rfl
    · rfl

/-- **A step that yields an entry** takes its key away, before which nothing was shown. -/
theorem next_some {merge : Merge σ} {entry : Entry}
    (hsorted : ∀ entries ∈ pendings reader merge.heads, Ascending entries)
    (h : ((Merge.reader reader).next merge).1 = some entry) :
    shows reader merge entry.key = entry.value ∧
      (∀ key, key < entry.key → shows reader merge key = none) ∧
      ∀ key, entry.key < key →
        shows reader ((Merge.reader reader).next merge).2 key = shows reader merge key := by
  have hpending := (Merge.reader reader).pending_of_some h
  have hasc : Ascending ((Merge.reader reader).pending merge) := pending_ascending hsorted
  rw [hpending] at hasc
  obtain ⟨hlater, -⟩ := List.pairwise_cons.1 hasc
  refine ⟨?_, fun key hlt => ?_, fun key hlt => ?_⟩
  · rw [shows, hpending, lookup_cons, if_pos rfl]
    rfl
  · -- The entry yielded comes first of all that is pending, so a key before it has nothing there.
    have hnone : lookup ((Merge.reader reader).pending merge) key = none := by
      rw [hpending, lookup_eq_none]
      intro other hmem hkey
      rcases List.mem_cons.1 hmem with rfl | hmem
      · exact Bytes.lt_irrefl _ (hkey ▸ hlt)
      · exact Bytes.lt_asymm hlt (hkey ▸ hlater other hmem)
    rw [shows, hnone]
    rfl
  · rw [shows, shows, hpending, lookup_cons, if_neg (ne_of_lt hlt).symm]

/-- **A step that yields none** finds nothing left to show, and leaves no heads. -/
theorem next_none {merge : Merge σ} (h : ((Merge.reader reader).next merge).1 = none) :
    (∀ key, shows reader merge key = none) ∧ ((Merge.reader reader).next merge).2.heads = [] := by
  refine ⟨fun key => ?_, nextLive_snd_of_none h⟩
  rw [shows, (Merge.reader reader).pending_of_none h]
  rfl

/-- A step leaves entries that were there before, past the one taken out. -/
theorem pendings_after_pop? {heads rest : List (Head σ)} {entry : Entry}
    (hsorted : ∀ entries ∈ pendings reader heads, Ascending entries)
    (hpop : pop? reader heads = some (entry, rest)) :
    ∀ entries ∈ pendings reader rest, Ascending entries ∧ ∀ later ∈ entries,
      entry.key < later.key ∧ ∃ before ∈ pendings reader heads, later ∈ before := by
  obtain ⟨newer, older, rest', hheads, hrest, hnewer, holder⟩ :=
    pendings_pop? (fun entries hmem => (hsorted entries hmem).nonDescending) hpop
  have hhead : Ascending (entry :: rest') := hsorted _ (by simp [hheads])
  rw [hheads] at hsorted ⊢
  rw [hrest]
  intro entries hmem
  rcases List.mem_append.1 hmem with hmem | hmem
  · exact ⟨hsorted entries (by simp [hmem]), fun later hlater =>
      ⟨hnewer entries hmem later hlater, entries, by simp [hmem], hlater⟩⟩
  · rcases List.mem_append.1 (List.mem_filter.1 hmem).1 with hmem | hmem
    · -- The source of the entry goes on after it, since its own keys ascend.
      obtain rfl := List.mem_singleton.1 hmem
      obtain ⟨hlater, hasc⟩ := List.pairwise_cons.1 hhead
      exact ⟨hasc, fun later hmem => ⟨hlater later hmem, entry :: entries, by simp, by simp [hmem]⟩⟩
    · -- The older sources have passed over its key.
      obtain ⟨whole, hwhole, rfl⟩ := List.mem_map.1 hmem
      refine ⟨(hsorted whole (by simp [hwhole])).filter _, fun later hlater => ?_⟩
      obtain ⟨hin, hne⟩ := List.mem_filter.1 hlater
      refine ⟨?_, whole, by simp [hwhole], hin⟩
      rcases List.le_iff_lt_or_eq.1 (List.not_lt.1 (holder whole hwhole later hin)) with hlt | heq
      · exact hlt
      · exact absurd heq.symm (by simpa using hne)

theorem pendings_after_nextLive {heads : List (Head σ)} {entry : Entry}
    (hsorted : ∀ entries ∈ pendings reader heads, Ascending entries)
    (h : (nextLive reader heads).1 = some entry) :
    ∀ entries ∈ pendings reader (nextLive reader heads).2, Ascending entries ∧ ∀ later ∈ entries,
      entry.key < later.key ∧ ∃ before ∈ pendings reader heads, later ∈ before := by
  fun_induction nextLive reader heads with
  | case1 => cases h
  | case2 heads passed rest hpop htomb ih =>
    have hrest := pendings_after_pop? hsorted hpop
    intro entries hmem
    obtain ⟨hasc, hlater⟩ := ih (fun entries hmem => (hrest entries hmem).1) h entries hmem
    refine ⟨hasc, fun later hin => ?_⟩
    obtain ⟨hlt, before, hbefore, hmem'⟩ := hlater later hin
    exact ⟨hlt, ((hrest before hbefore).2 later hmem').2⟩
  | case3 heads passed rest hpop htomb =>
    obtain rfl := Option.some.inj h
    exact pendings_after_pop? hsorted hpop

/-- The entry taken out was there before, and is live. -/
theorem mem_of_next_some {heads : List (Head σ)} {entry : Entry}
    (hsorted : ∀ entries ∈ pendings reader heads, Ascending entries)
    (h : (nextLive reader heads).1 = some entry) :
    entry.isTombstone = false ∧ ∃ before ∈ pendings reader heads, entry ∈ before := by
  have hmem : entry ∈ (Merge.reader reader).pending ⟨heads⟩ := by
    have hpending : (Merge.reader reader).pending ⟨heads⟩ = entry :: _ :=
      (Merge.reader reader).pending_of_some h
    rw [hpending]
    exact List.mem_cons_self
  obtain ⟨hfound, hlive⟩ := (mem_pending_iff hsorted).1 hmem
  obtain ⟨before, hbefore, hlookup⟩ := List.exists_of_findSome?_eq_some hfound
  exact ⟨hlive, before, hbefore, mem_of_lookup hlookup⟩

/-- Until an entry is yielded no head moves that stands past its key. -/
theorem moves_nextLive_of_some {heads : List (Head σ)} {entry : Entry}
    (hsorted : ∀ entries ∈ pendings reader heads, Ascending entries)
    (h : (nextLive reader heads).1 = some entry) :
    Moves reader (fun head => ¬ entry.key < head.entry.key) heads (nextLive reader heads).2 := by
  fun_induction nextLive reader heads with
  | case1 => cases h
  | case2 heads passed rest hpop htomb ih =>
    have hrest := pendings_after_pop? hsorted hpop
    have hrest' : ∀ entries ∈ pendings reader rest, Ascending entries := fun entries hmem =>
      (hrest entries hmem).1
    -- The tombstones passed on the way have lesser keys.
    obtain ⟨-, before, hbefore, hmem⟩ := mem_of_next_some hrest' h
    have hlt : passed.key < entry.key := ((hrest before hbefore).2 entry hmem).1
    exact ((moves_pop? hpop).mono fun head hkey => hkey ▸ Bytes.lt_asymm hlt).trans (ih hrest' h)
  | case3 heads passed rest hpop htomb =>
    obtain rfl := Option.some.inj h
    exact (moves_pop? hpop).mono fun head hkey => hkey ▸ Bytes.lt_irrefl _

end Merge

/-! ## Leaves that read tables -/

theorem Memory.table_of_prefix {memory changed : Memory} (h : memory.tables <+: changed.tables) {id : Nat}
    (hlt : id < memory.tables.length) : changed.table id = memory.table id := by
  obtain ⟨more, hmore⟩ := h
  rw [table, table, ← hmore, List.getD_eq_getElem?_getD, List.getD_eq_getElem?_getD,
    List.getElem?_append_left hlt]

/-- A key after one of a range lies in it too, if it is not past the upper bound. -/
theorem KeyRange.contains_of_lt {range : KeyRange} {key later : Bytes} (h : range.contains key = true)
    (hlt : key < later) (hends : range.endsAfter later = true) : range.contains later = true := by
  obtain ⟨hstarts, -⟩ := Bool.and_eq_true_iff.1 h
  -- A cursor that has not moved has the keys from the lower bound on ahead.
  exact Bool.and_eq_true_iff.2 ⟨Memtable.Cursor.isAhead_of_lt
    (show (Memtable.Cursor.ofRange range).isAhead key = true from hstarts) hlt, hends⟩

namespace Leaf

/-- The table that a leaf reads. -/
def table? : Leaf → Option Nat
  | table id _ => some id
  | _ => none

theorem eq_table_of_table? {leaf : Leaf} {id : Nat} (h : leaf.table? = some id) :
    ∃ cursor, leaf = .table id cursor := by
  cases leaf with
  | list entries => cases h
  | table other cursor => exact ⟨cursor, Option.some.inj h ▸ rfl⟩
  | segment handle cursor => cases h

@[simp] theorem table?_next (memory : Memory) (leaf : Leaf) :
    ((reader memory).next leaf).2.table? = leaf.table? := by
  cases leaf <;> rfl

theorem pending_congr {memory changed : Memory} {leaf : Leaf}
    (h : ∀ id, leaf.table? = some id → changed.table id = memory.table id) :
    leaf.pending changed = leaf.pending memory := by
  cases leaf with
  | list entries => rfl
  | table id cursor => rw [pending, pending, h id rfl]
  | segment handle cursor => rfl

end Leaf

namespace Merge

open Memtable (Cursor)

variable {bounds : KeyRange} {memory changed : Memory} {head : Head Leaf} {heads : List (Head Leaf)}

theorem pendings_congr (h : ∀ head ∈ heads, ∀ id, head.source.table? = some id →
      changed.table id = memory.table id) :
    pendings (Leaf.reader changed) heads = pendings (Leaf.reader memory) heads := by
  refine List.map_congr_left fun head hmem => ?_
  rw [heldBy, heldBy, Leaf.pending_reader, Leaf.pending_reader, Leaf.pending_congr (h head hmem)]

/-- If the source of a head reads a table, it goes on in the range just after the entry taken out. -/
def Placed (bounds : KeyRange) (memory : Memory) (head : Head Leaf) : Prop :=
  ∀ id cursor, head.source = .table id cursor →
    cursor = ⟨bounds, some head.entry.key, false⟩ ∧ id < memory.tables.length

theorem placed_of_head? {source : Leaf} (h : ∀ id cursor, source = .table id cursor →
      cursor.range = bounds ∧ id < memory.tables.length) :
    ∀ head ∈ (head? (Leaf.reader memory) source).toList, Placed bounds memory head := by
  unfold head?
  split
  · next entry rest hnext =>
    intro head hmem
    obtain rfl : head = ⟨entry, rest⟩ := by simpa using hmem
    rintro id cursor rfl
    cases source with
    | list entries => exact nomatch (Prod.mk.inj hnext).2
    | segment handle cursor => exact nomatch (Prod.mk.inj hnext).2
    | table id' cursor' =>
      obtain ⟨hrange, hlt⟩ := h id' cursor' rfl
      obtain ⟨hentry, hrest⟩ := Prod.mk.inj hnext
      obtain ⟨hopen, hmoved⟩ := Cursor.next_of_some hentry
      obtain ⟨rfl, rfl⟩ := Leaf.table.inj hrest
      refine ⟨hmoved.trans ?_, hlt⟩
      rw [← hrange, ← hopen]
  · simp

theorem placed_advance (h : Placed bounds memory head) :
    ∀ later ∈ advance (Leaf.reader memory) head, Placed bounds memory later :=
  placed_of_head? fun id cursor hsource => by
    obtain ⟨rfl, hlt⟩ := h id cursor hsource
    exact ⟨rfl, hlt⟩

/-- **A write into the table that a head reads** is held by the head if it comes after the entry taken
out and within the range; for every other key the head holds what it held. -/
theorem heldBy_insert {id : Nat} (hplaced : Placed bounds memory head)
    (hreads : head.source.table? = some id) (entry : Entry) :
    let held := heldBy (Leaf.reader (memory.insert id entry)) head
    Ascending held ∧
      (∀ later ∈ held, later ∈ heldBy (Leaf.reader memory) head ∨
        later = entry ∧ head.entry.key < entry.key ∧ bounds.endsAfter entry.key = true) ∧
      ∀ key, lookup held key = lookup (heldBy (Leaf.reader memory) head) key ∨
        entry.key = key ∧ lookup held key = some entry := by
  obtain ⟨cursor, hsource⟩ := Leaf.eq_table_of_table? hreads
  obtain ⟨rfl, hlt⟩ := hplaced id cursor hsource
  -- What the cursor has ahead in a table depends on the entry taken out and the upper bound alone.
  let kept : Bytes → Bool := fun key => decide (head.entry.key < key) && bounds.endsAfter key
  have hheld : ∀ memory : Memory, heldBy (Leaf.reader memory) head =
      head.entry :: (memory.table id).entries.filter fun later => kept later.key := by
    intro memory
    rw [heldBy, Leaf.pending_reader, hsource]
    exact congrArg (head.entry :: ·) (Cursor.pending_moved (memory.table id)
      (show (Cursor.mk bounds (some head.entry.key) false).finished = false from rfl) head.entry.key)
  have htable : ((memory.insert id entry).table id).entries =
      insertEntry entry (memory.table id).entries := by
    rw [Memory.table_insert, if_pos ⟨rfl, hlt⟩]
    rfl
  intro held
  have hnow : held = head.entry ::
      (insertEntry entry (memory.table id).entries).filter fun later => kept later.key := by
    rw [← htable]
    exact hheld _
  rw [hnow, hheld memory]
  refine ⟨List.pairwise_cons.2 ⟨fun later hmem => ?_, ?_⟩, fun later hmem => ?_, fun key => ?_⟩
  · exact of_decide_eq_true (Bool.and_eq_true_iff.1 (List.mem_filter.1 hmem).2).1
  · exact (ascending_insertEntry (memory.table id).ascending).filter _
  · rcases List.mem_cons.1 hmem with rfl | hmem
    · exact .inl List.mem_cons_self
    · obtain ⟨hin, hkept⟩ := List.mem_filter.1 hmem
      rcases mem_insertEntry hin with rfl | hold
      · obtain ⟨hafter, hends⟩ := Bool.and_eq_true_iff.1 hkept
        exact .inr ⟨rfl, of_decide_eq_true hafter, hends⟩
      · exact .inl (List.mem_cons_of_mem _ (List.mem_filter.2 ⟨hold, hkept⟩))
  · rw [lookup_cons, lookup_cons, lookup_filter_key, lookup_filter_key, lookup_insertEntry]
    by_cases hhead : head.entry.key = key
    · exact .inl (by simp [hhead])
    · by_cases hkey : entry.key = key
      · -- A write behind the cursor, or past its bound, is not seen by it.
        cases hkept : kept key with
        | true => exact .inr ⟨hkey, by simp [hhead, hkey]⟩
        | false => exact .inl (by simp [hhead])
      · exact .inl (by simp [hkey])

/-! ## Answers given -/

/-- The entries among the answers given. -/
def emitted (given : List (Option Entry)) : List Entry := given.filterMap id

/-- The answers given have passed a key: one of them is an entry from this key on, or none at all. -/
def Passed (given : List (Option Entry)) (key : Bytes) : Prop :=
  ∃ answer ∈ given, ∀ entry, answer = some entry → ¬ entry.key < key

/-- What the answers given say of a key: the value emitted for it, or nothing. -/
def answered (given : List (Option Entry)) (key : Bytes) : Option Bytes :=
  (lookup (emitted given) key).bind Entry.value

variable {given : List (Option Entry)} {answer : Option Entry} {key later : Bytes}

theorem emitted_append (front back : List (Option Entry)) :
    emitted (front ++ back) = emitted front ++ emitted back := List.filterMap_append

theorem Passed.of_lt (h : Passed given later) (hlt : key < later) : Passed given key := by
  obtain ⟨answer, hmem, hpast⟩ := h
  exact ⟨answer, hmem, fun entry hentry hbefore => hpast entry hentry (Bytes.lt_trans hbefore hlt)⟩

theorem passed_append : Passed (given ++ [answer]) key ↔
    Passed given key ∨ ∀ entry, answer = some entry → ¬ entry.key < key := by
  constructor
  · rintro ⟨other, hmem, hpast⟩
    rcases List.mem_append.1 hmem with hmem | hmem
    · exact .inl ⟨other, hmem, hpast⟩
    · exact .inr (List.mem_singleton.1 hmem ▸ hpast)
  · rintro (⟨other, hmem, hpast⟩ | hpast)
    · exact ⟨other, List.mem_append_left _ hmem, hpast⟩
    · exact ⟨answer, by simp, hpast⟩

theorem passed_of_mem_emitted {entry : Entry} (h : entry ∈ emitted given) : Passed given entry.key := by
  refine ⟨some entry, by simpa [emitted] using h, fun other hother => ?_⟩
  obtain rfl := Option.some.inj hother
  exact Bytes.lt_irrefl _

theorem lookup_emitted_of_not_passed (h : ¬ Passed given key) : lookup (emitted given) key = none :=
  lookup_eq_none.2 fun _ hmem hkey => h (hkey ▸ passed_of_mem_emitted hmem)

theorem answered_of_not_passed (h : ¬ Passed given key) : answered given key = none := by
  rw [answered, lookup_emitted_of_not_passed h]
  rfl

/-! ## A merge that goes on -/

/-- A merge of cursors over a range that has given some answers: these are live entries of the range in
ascending order, and what it holds now lies in the range past them. -/
structure Follows (bounds : KeyRange) (given : List (Option Entry)) (memory : Memory)
    (merge : Merge Leaf) : Prop where
  ascending : ∀ entries ∈ pendings (Leaf.reader memory) merge.heads, Ascending entries
  ahead : ∀ entries ∈ pendings (Leaf.reader memory) merge.heads, ∀ entry ∈ entries,
    bounds.contains entry.key = true ∧ ¬ Passed given entry.key
  placed : ∀ head ∈ merge.heads, Placed bounds memory head
  ordered : Ascending (emitted given)
  live : ∀ entry ∈ emitted given, bounds.contains entry.key = true ∧ entry.isTombstone = false

/-- Only the first head of a merge may read the table. -/
def Spares (id : Nat) (merge : Merge Leaf) : Prop :=
  some id ∉ (merge.heads.map fun head => head.source.table?).tail

variable {merge : Merge Leaf}

/-- **Asked for its next entry,** the merge goes on past its answer. -/
theorem Follows.next (h : Follows bounds given memory merge) :
    Follows bounds (given ++ [((Merge.reader (Leaf.reader memory)).next merge).1]) memory
      ((Merge.reader (Leaf.reader memory)).next merge).2 := by
  have hplaced := (moves_nextLive merge.heads).forall_mem (fun _ _ => placed_advance) h.placed
  cases hnext : ((Merge.reader (Leaf.reader memory)).next merge).1 with
  | none =>
    have hheads := (next_none hnext).2
    have hemitted : emitted (given ++ [none]) = emitted given := by simp [emitted]
    refine ⟨?_, ?_, hplaced, hemitted ▸ h.ordered, hemitted ▸ h.live⟩
    · rw [hheads]
      simp [pendings]
    · rw [hheads]
      simp [pendings]
  | some entry =>
    -- Its entry was ahead of the answers so far, and all that is left is ahead of it.
    have hafter := pendings_after_nextLive h.ascending hnext
    obtain ⟨hlive, before, hbefore, hmem⟩ := mem_of_next_some h.ascending hnext
    obtain ⟨hbounds, hahead⟩ := h.ahead before hbefore entry hmem
    have hemitted : emitted (given ++ [some entry]) = emitted given ++ [entry] := by simp [emitted]
    refine ⟨fun entries hentries => (hafter entries hentries).1, ?_, hplaced, ?_, ?_⟩
    · intro entries hentries later hlater
      obtain ⟨hlt, before, hbefore, hmem⟩ := (hafter entries hentries).2 later hlater
      obtain ⟨hin, hnot⟩ := h.ahead before hbefore later hmem
      refine ⟨hin, fun hpassed => ?_⟩
      exact (passed_append.1 hpassed).elim hnot fun hpast => hpast entry rfl hlt
    · rw [hemitted]
      refine List.pairwise_append.2 ⟨h.ordered, by simp, fun earlier hearlier other hother => ?_⟩
      obtain rfl := List.mem_singleton.1 hother
      -- An entry given before that is not before this one would have passed its key.
      refine Decidable.byContradiction fun hnot => hahead ?_
      refine ⟨some earlier, by simpa [emitted] using hearlier, fun entry hentry => ?_⟩
      exact Option.some.inj hentry ▸ hnot
    · rw [hemitted]
      intro other hother
      rcases List.mem_append.1 hother with hother | hother
      · exact h.live other hother
      · exact List.mem_singleton.1 hother ▸ ⟨hbounds, hlive⟩

/-- **What the answer says:** of the keys passed before what was said already, of those passed by it what
the merge would have shown, and of the others the merge shows what it did. -/
theorem Follows.answered_next (h : Follows bounds given memory merge) (key : Bytes) :
    let step := (Merge.reader (Leaf.reader memory)).next merge
    (Passed given key → answered (given ++ [step.1]) key = answered given key) ∧
    (¬ Passed given key → Passed (given ++ [step.1]) key →
      answered (given ++ [step.1]) key = shows (Leaf.reader memory) merge key) ∧
    (¬ Passed (given ++ [step.1]) key →
      shows (Leaf.reader memory) step.2 key = shows (Leaf.reader memory) merge key) := by
  intro step
  cases hnext : step.1 with
  | none =>
    have hsame : answered (given ++ [none]) key = answered given key := by simp [answered, emitted]
    refine ⟨fun _ => hsame, fun hnot _ => ?_, fun hnot => absurd (passed_append.2 ?_) hnot⟩
    · rw [hsame, answered_of_not_passed hnot, (next_none hnext).1]
    · exact .inr fun entry hentry => nomatch hentry
  | some entry =>
    obtain ⟨hshown, hbefore, hafter⟩ := next_some h.ascending hnext
    obtain ⟨-, before, hin, hmem⟩ := mem_of_next_some h.ascending hnext
    have hahead := (h.ahead before hin entry hmem).2
    have hlookup : lookup (emitted (given ++ [some entry])) key =
        (lookup (emitted given) key).or (if entry.key = key then some entry else none) := by
      rw [emitted_append, lookup_append]
      exact congrArg _ (lookup_cons entry [] key)
    refine ⟨fun hpassed => ?_, fun hnot hpassed => ?_, fun hnot => ?_⟩
    · -- An entry that is ahead says nothing of a key passed before.
      have hne : entry.key ≠ key := fun hkey => hahead (hkey ▸ hpassed)
      rw [answered, hlookup, if_neg hne, Option.or_none]
      rfl
    · have hpast := (passed_append.1 hpassed).resolve_left hnot entry rfl
      rw [answered, hlookup, lookup_emitted_of_not_passed hnot, Option.none_or]
      by_cases hkey : entry.key = key
      · subst hkey
        rw [if_pos rfl, hshown]
        rfl
      · -- The step went past the key without an entry for it: nothing was shown of it.
        have hlt : key < entry.key :=
          (List.le_iff_lt_or_eq.1 (List.not_lt.1 hpast)).resolve_right (Ne.symm hkey)
        rw [if_neg hkey, hbefore key hlt]
        rfl
    · refine hafter key (Decidable.byContradiction fun hnlt => hnot (passed_append.2 (.inr ?_)))
      intro other hother
      exact Option.some.inj hother ▸ hnlt

theorem Spares.next {id : Nat} (h : Spares id merge) :
    Spares id ((Merge.reader (Leaf.reader memory)).next merge).2 := fun hmem =>
  h (((moves_nextLive merge.heads).sublist (Leaf.table?_next memory)).tail.subset hmem)

/-- A merge goes on as before if no table that it reads was changed. -/
theorem Follows.congr (h : Follows bounds given memory merge)
    (hsame : ∀ head ∈ merge.heads, ∀ id, head.source.table? = some id →
      changed.table id = memory.table id)
    (hlength : memory.tables.length ≤ changed.tables.length) : Follows bounds given changed merge ∧
      ∀ key, shows (Leaf.reader changed) merge key = shows (Leaf.reader memory) merge key := by
  obtain ⟨heads⟩ := merge
  have hpendings := pendings_congr hsame
  have hascending : ∀ entries ∈ pendings (Leaf.reader changed) heads, Ascending entries :=
    hpendings.symm ▸ h.ascending
  refine ⟨⟨hascending, hpendings.symm ▸ h.ahead, fun head hmem id cursor hsource => ?_, h.ordered,
    h.live⟩, fun key => ?_⟩
  · obtain ⟨hcursor, hlt⟩ := h.placed head hmem id cursor hsource
    exact ⟨hcursor, Nat.lt_of_lt_of_le hlt hlength⟩
  · rw [shows_eq hascending, shows_eq h.ascending, hpendings]

theorem Follows.table_lt (h : Follows bounds given memory merge) (hmem : head ∈ merge.heads) {id : Nat}
    (hreads : head.source.table? = some id) : id < memory.tables.length := by
  obtain ⟨cursor, hsource⟩ := Leaf.eq_table_of_table? hreads
  exact (h.placed head hmem id cursor hsource).2

/-- **While tables are only made,** the merge shows what it did. -/
theorem Follows.extends (h : Follows bounds given memory merge)
    (hextends : memory.tables <+: changed.tables) : Follows bounds given changed merge ∧
      ∀ key, shows (Leaf.reader changed) merge key = shows (Leaf.reader memory) merge key :=
  h.congr (fun _ hmem _ hreads => Memory.table_of_prefix hextends (h.table_lt hmem hreads))
    hextends.length_le

/-- A write into one table leaves the others as they were. -/
theorem table_insert_of_reads {id other : Nat} (hnot : head.source.table? ≠ some id)
    (hreads : head.source.table? = some other) (entry : Entry) :
    (memory.insert id entry).table other = memory.table other := by
  rw [Memory.table_insert, if_neg]
  rintro ⟨rfl, -⟩
  exact hnot hreads

/-- The first head takes up a write into the table that it reads, and the others, which read other
tables, leave all they hold to be shown as it was. -/
theorem Follows.insert_first {id : Nat} {first : Head Leaf} {rest : List (Head Leaf)}
    (h : Follows bounds given memory ⟨first :: rest⟩) (hfirst : first.source.table? = some id)
    (hothers : ∀ head ∈ rest, head.source.table? ≠ some id) (entry : Entry) :
    Follows bounds given (memory.insert id entry) ⟨first :: rest⟩ ∧
      ∀ key, shows (Leaf.reader (memory.insert id entry)) ⟨first :: rest⟩ key =
          shows (Leaf.reader memory) ⟨first :: rest⟩ key ∨
        entry.key = key ∧ shows (Leaf.reader (memory.insert id entry)) ⟨first :: rest⟩ key =
          entry.value := by
  have hpendings : pendings (Leaf.reader (memory.insert id entry)) (first :: rest) =
      heldBy (Leaf.reader (memory.insert id entry)) first :: pendings (Leaf.reader memory) rest := by
    rw [pendings_cons, pendings_congr fun head hmem _ hreads =>
      table_insert_of_reads (hothers head hmem) hreads entry]
  obtain ⟨hasc, hmem, hlookup⟩ := heldBy_insert (h.placed first (by simp)) hfirst entry
  have hascending : ∀ entries ∈ pendings (Leaf.reader (memory.insert id entry)) (first :: rest),
      Ascending entries := by
    rw [hpendings]
    intro entries hentries
    rcases List.mem_cons.1 hentries with rfl | hentries
    · exact hasc
    · exact h.ascending entries (by simp [hentries])
  refine ⟨⟨hascending, ?_, fun head hmem id' cursor hsource => ?_, h.ordered, h.live⟩, fun key => ?_⟩
  · rw [hpendings]
    intro entries hentries later hlater
    rcases List.mem_cons.1 hentries with rfl | hentries
    · rcases hmem later hlater with hold | ⟨rfl, hafter, hends⟩
      · exact h.ahead _ (by simp) later hold
      · -- The entry taken out lies in the range past the answers, and the new one comes after it.
        obtain ⟨hin, hnot⟩ := h.ahead (heldBy (Leaf.reader memory) first) (by simp) first.entry
          List.mem_cons_self
        exact ⟨KeyRange.contains_of_lt hin hafter hends, fun hpassed => hnot (hpassed.of_lt hafter)⟩
    · exact h.ahead entries (by simp [hentries]) later hlater
  · obtain ⟨hcursor, hlt⟩ := h.placed head hmem id' cursor hsource
    exact ⟨hcursor, by simpa [Memory.insert] using hlt⟩
  · rw [shows_eq hascending, shows_eq h.ascending, hpendings, pendings_cons, List.findSome?_cons,
      List.findSome?_cons]
    rcases hlookup key with hsame | ⟨hkey, hnew⟩
    · rw [hsame]
      exact .inl rfl
    · rw [hnew]
      exact .inr ⟨hkey, rfl⟩

/-- **A write** into a table that only the first head may read changes what the merge shows for its key
at most, and only to what was written. -/
theorem Follows.insert (h : Follows bounds given memory merge) {id : Nat} (hspares : Spares id merge)
    (entry : Entry) : Follows bounds given (memory.insert id entry) merge ∧
      ∀ key, shows (Leaf.reader (memory.insert id entry)) merge key =
          shows (Leaf.reader memory) merge key ∨
        entry.key = key ∧ id < memory.tables.length ∧
          shows (Leaf.reader (memory.insert id entry)) merge key = entry.value := by
  have hspared : (∀ head ∈ merge.heads, head.source.table? ≠ some id) →
      Follows bounds given (memory.insert id entry) merge ∧
        ∀ key, shows (Leaf.reader (memory.insert id entry)) merge key =
          shows (Leaf.reader memory) merge key := fun hnone =>
    h.congr (fun head hmem _ hreads => table_insert_of_reads (hnone head hmem) hreads entry)
      (by simp [Memory.insert])
  obtain ⟨_ | ⟨first, rest⟩⟩ := merge
  · obtain ⟨hfollows, hshows⟩ := hspared (by simp)
    exact ⟨hfollows, fun key => .inl (hshows key)⟩
  · have hothers : ∀ head ∈ rest, head.source.table? ≠ some id := fun head hmem hreads =>
      hspares (List.mem_map.2 ⟨head, hmem, hreads⟩)
    by_cases hfirst : first.source.table? = some id
    · obtain ⟨hfollows, hshows⟩ := h.insert_first hfirst hothers entry
      have hid := h.table_lt List.mem_cons_self hfirst
      exact ⟨hfollows, fun key => (hshows key).imp_right fun hnew => ⟨hnew.1, hid, hnew.2⟩⟩
    · obtain ⟨hfollows, hshows⟩ := hspared fun head hmem =>
        (List.mem_cons.1 hmem).elim (fun hsame => hsame ▸ hfirst) (hothers head)
      exact ⟨hfollows, fun key => .inl (hshows key)⟩

end Merge

end LsmTree
