import LsmTree.Proofs.FailedMaintenance

/-!
# What a compaction comes to

A compaction reads all layers as one and writes what it reads as one segment. That is the list of entries
that a reading of the whole store would give just before. So the new segment and the octets of its files
depend on what the store shows alone, and not on the tables and segments in which that lay.

It takes a generation that no segment has whose files are still to be taken away. Otherwise it takes its own
files away with them; only once the generations have run out and are handed out again is there such a
segment.

* **`Maintenance.merge_eq`** — what all layers come to is what a reading of everything yields;
* **`Maintenance.Unites.holding_segment`** — the files of the new segment are its layout;
* **`World.compaction_is_canonical`** — what a compaction that succeeds leaves.
-/

namespace LsmTree

open Maintenance (Workspace Unites)

/-! ## Reading after a freeze -/

namespace Leaf

variable {memory memory' : Memory}

/-- Reading leaves takes nothing of a memory but its tables. -/
theorem reader_congr (h : ∀ id, memory'.table id = memory.table id) : reader memory' = reader memory := by
  have hnext : next memory' = next memory := by
    funext leaf
    cases leaf with
    | table id cursor => rw [next, next, h]
    | _ => rfl
  have hremaining : remaining memory' = remaining memory := by
    funext leaf
    cases leaf with
    | table id cursor => rw [remaining, remaining, h]
    | _ => rfl
  unfold reader
  congr 1

/-- A merge lets go of an empty table at once. -/
theorem head?_ofTable {id : Nat} (hempty : (memory.table id).isEmpty = true) (range : KeyRange) :
    Merge.head? (reader memory) (ofTable id range) = none := by
  have hnone : (memory.table id).entries = [] := List.isEmpty_iff.1 hempty
  have hnext : ((reader memory).next (ofTable id range)).1 = none := by
    show (Memtable.Cursor.next (memory.table id) (.ofRange range)).1 = none
    rw [Memtable.Cursor.next, hnone]
    split
    · rfl
    · rfl
  rw [Merge.head?]
  split
  · next entry rest hsome =>
    rw [hsome] at hnext
    cases hnext
  · rfl

end Leaf

/-- What is merged is free of tombstones. -/
theorem isTombstone_of_mem_merged {memory : Memory} {tables : List Nat} {handles : List Handle}
    {range : KeyRange} {entry : Entry} (h : entry ∈ merged memory tables handles range) :
    entry.isTombstone = false := by
  rw [merged, Merge.ofSources, Merge.pending_eq_filter] at h
  simpa using (List.mem_filter.1 h).2

namespace Maintenance

variable {start after : Workspace} {inUse : Handle → Bool} {replaced : List Handle}

/-- **What all layers come to** is what a reading of everything yields, with the table that takes the
writes. -/
theorem merge_eq : start.merge = merged start.memory start.engine.tables start.engine.segments .all := by
  have hmerge : start.merge = merged start.frozen.memory start.frozen.engine.queue.reverse
      start.frozen.engine.segments .all := rfl
  rw [hmerge, frozen_segments, merged, merged, Leaf.reader_congr table_frozen]
  -- An empty table is not frozen, and yields nothing; another one comes to be the newest that waits.
  rcases frozen_queue with ⟨hqueue, hempty⟩ | hqueue
  · have hfirst : layersIn start.engine.tables start.engine.segments .all =
        Leaf.ofTable start.engine.active .all ::
          layersIn start.engine.queue.reverse start.engine.segments .all := rfl
    rw [hqueue, hfirst, Merge.ofSources, Merge.ofSources,
      List.filterMap_cons_none (Leaf.head?_ofTable hempty _)]
  · rw [hqueue, List.reverse_append]
    rfl

/-! ## The segment that is left -/

theorem Unites.live (h : Unites inUse start replaced after) :
    after.engine.live = start.union?.toList := by
  rw [h.state]
  exact (live_taking _ _ _ _).trans (List.append_nil _)

theorem Unites.isEmpty_active (h : Unites inUse start replaced after) :
    (after.memory.table after.engine.active).isEmpty = true := by
  have hactive : after.engine.active = start.frozen.engine.active := by
    rw [h.state]
    rfl
  have htables : after.memory.tables = start.frozen.memory.tables := by
    rw [h.state]
    exact Memory.tables_adoptAll _ _ _
  rw [hactive, Memory.table_congr htables]
  exact isEmpty_frozen

theorem Unites.unshared (h : Unites inUse start replaced after) : after.snapshot.Unshared := by
  obtain ⟨s, -, hremoved⟩ := h.files
  exact hremoved.unshared

/-- The manifest lists what is left. -/
theorem Unites.written (h : Unites inUse start replaced after) : ∃ bytes manifest,
    after.snapshot.holding FileName.manifest = .file bytes ∧ Manifest.decode bytes = .ok manifest ∧
      manifest.segments = after.engine.live.reverse.map Segment.info := by
  obtain ⟨s, hcommits, hremoved⟩ := h.files
  obtain ⟨bytes, hencode, hfile⟩ := hcommits.written
  refine ⟨bytes, _, ?_, Manifest.decode_encode hencode rfl, ?_⟩
  · refine hremoved.file_iff.2 ⟨hfile, fun hmem => ?_⟩
    obtain ⟨segment, -, half, hname⟩ := mem_filesOf.1 hmem
    exact FileName.segment_ne_manifest _ _ hname.symm
  · rw [h.live]
    rfl

/-- **The new segment**, if there is one, has all that the layers came to, and its files are the layout of
that, if none of the segments before was of its generation. -/
theorem Unites.holding_segment (h : Unites inUse start replaced after)
    (hfresh : ∀ handle ∈ start.engine.segments, handle.segment.generation ≠ start.next)
    (hsome : start.merge ≠ []) : ∃ segment, after.engine.live = [segment] ∧
      segment.generation = start.next ∧ segment.entries = start.merge ∧ Ascending start.merge ∧
      ∀ half, after.snapshot.holding (FileName.segment half start.next) =
        .file (Layout.file start.merge half) := by
  obtain ⟨s, hcommits, hremoved⟩ := h.files
  have hunion : start.union? = some (Segment.ofEntries start.next start.merge) :=
    if_neg fun hnone => hsome (List.isEmpty_iff.1 hnone)
  have hentries : (Segment.ofEntries start.next start.merge).entries = start.merge := by
    have hholds := h.holds
    rw [hunion] at hholds
    exact hholds
  obtain ⟨hgeneration, hstored⟩ := hcommits.stored _ hunion
  refine ⟨_, by rw [h.live, hunion]; rfl, hgeneration, hentries, hentries ▸ hstored.ascending, fun half => ?_⟩
  have hfile := hstored.holding_eq half
  rw [hgeneration, hentries] at hfile
  refine hremoved.file_iff.2 ⟨hfile, fun hmem => ?_⟩
  -- A file that is taken away belongs to a segment from before.
  obtain ⟨segment, hmem, half', hname⟩ := mem_filesOf.1 hmem
  obtain ⟨handle, hunused, rfl⟩ := List.mem_map.1 hmem
  exact hfresh handle (List.mem_filter.1 hunused).1 (FileName.segment_injective hname).2.symm

theorem Unites.live_eq_nil (h : Unites inUse start replaced after) (hnone : start.merge = []) :
    after.engine.live = [] := by
  rw [h.live, Workspace.union?, segmentOf?, hnone]
  rfl

end Maintenance

namespace World

variable {world : World} {ledger : Ledger} {engine : Engine}

/-- An engine that has anything has layers after a freeze. -/
theorem not_isBare (hsome : (world.memory.table engine.active).isEmpty = false ∨ engine.queue ≠ [] ∨
    engine.segments ≠ []) : (world.workspace engine).frozen.isBare ≠ true := by
  intro hbare
  obtain ⟨hqueue, hsegments⟩ := Bool.and_eq_true_iff.1 hbare
  rw [Maintenance.frozen_queue_eq, List.isEmpty_iff] at hqueue
  rw [Maintenance.frozen_segments, List.isEmpty_iff] at hsegments
  obtain ⟨hnone, hactive⟩ := List.append_eq_nil_iff.1 hqueue
  rcases hsome with hfull | hwaiting | hlisted
  · rw [if_neg (Bool.eq_false_iff.1 hfull : ¬ ((world.workspace engine).memory.table
      (world.workspace engine).engine.active).isEmpty = true)] at hactive
    cases hactive
  · exact hwaiting hnone
  · exact hlisted hsegments

/-- As long as the generations have not run out, the next one is that of no segment whose files are still
there. -/
theorem Using.fresh (h : Using world ledger engine) : ∀ handle ∈ engine.segments ++ world.replaced,
    handle.segment.generation ≠ engine.manager.next := by
  obtain ⟨recorded, hkept, hspares⟩ := h.kept
  intro handle hmem
  rcases List.mem_append.1 hmem with hlive | hreplaced
  · exact hkept.generation_ne (List.mem_map_of_mem hlive)
  · exact UInt64.ne_of_lt (UInt64.lt_of_lt_of_le (hspares handle hreplaced).1 hkept.recorded_le)

/-- **Compaction is canonical.** In any world, whatever its directory held at the start: if the open engine
has anything in a table or a segment, and no segment whose files are still there is of the next generation,
a compaction that succeeds leaves no entry in a table and no table to wait, and of segments just what the
manifest then lists. With the entries that a range over all keys gives just before, which are the live ones
that lookups show if the keys of all segments are in order: if there are none no segment is left, and
otherwise one, of the next generation, with these entries in ascending order and none of them a tombstone.
Its files are the layout of these entries, so they are the same octets wherever the entries lay before. -/
theorem compaction_is_canonical (hu : world.dir.Unshared) (hengine : world.engine = some engine)
    (hopen : engine.closed = false)
    (hsome : (world.memory.table engine.active).isEmpty = false ∨ engine.queue ≠ [] ∨ engine.segments ≠ [])
    (hfresh : ∀ handle ∈ engine.segments ++ world.replaced,
      handle.segment.generation ≠ engine.manager.next)
    {answer : Answer} {after : World} (hok : world.step .compact = (.ok answer, after)) :
    ∃ left entries, after.engine = some left ∧
      (world.step (.range .all)).1 = .ok (.entries entries) ∧
      ((∀ segment ∈ engine.live, Ascending segment.entries) → Lists world.shown .all entries) ∧
      (after.memory.table left.active).isEmpty = true ∧ left.queue = [] ∧
      (∃ bytes manifest, after.dir.holding FileName.manifest = .file bytes ∧
        Manifest.decode bytes = .ok manifest ∧ manifest.segments = left.live.reverse.map Segment.info) ∧
      (entries = [] → left.live = []) ∧
      (entries ≠ [] → ∃ segment, left.live = [segment] ∧ segment.generation = engine.manager.next ∧
        segment.entries = entries ∧ Ascending entries ∧ (∀ entry ∈ entries, entry.isTombstone = false) ∧
        ∀ half, after.dir.holding (FileName.segment half engine.manager.next) =
          .file (Layout.file entries half)) := by
  obtain ⟨hanswer, hafter⟩ := Prod.mk.inj ((step_eq .compact).symm.trans hok)
  obtain ⟨error | replaced, last, hact, hcompacts⟩ := act_compact hengine hopen hu
  · rw [hact] at hanswer
    cases hanswer
  obtain ⟨hbare, -⟩ | ⟨-, hunites⟩ := hcompacts
  · exact absurd hbare (not_isBare hsome)
  have hentries : (world.workspace engine).merge =
      merged world.memory engine.tables engine.segments .all := Maintenance.merge_eq
  rw [hact] at hafter
  let middle : World := { world.after last with replaced := world.replaced ++ replaced }
  have hmiddle : middle.dir.Unshared := hunites.unshared
  have hremoved := releaseFiles_unheld hmiddle
  -- What is taken away at the end belongs to replaced segments, old or new.
  have hkeeps : ∀ {name bytes}, last.snapshot.holding name = .file bytes →
      (∀ handle ∈ engine.segments ++ world.replaced, ∀ half,
        name ≠ FileName.segment half handle.segment.generation) → after.dir.holding name = .file bytes := by
    intro name bytes hfile hname
    rw [← hafter]
    refine hremoved.file_iff.2 ⟨hfile, fun hmem => ?_⟩
    obtain ⟨segment, hsegment, half, rfl⟩ := mem_filesOf.1 hmem
    obtain ⟨handle, hunheld, rfl⟩ := List.mem_map.1 hsegment
    refine hname handle ?_ half rfl
    rcases List.mem_append.1 (List.mem_filter.1 hunheld).1 with hbefore | hnow
    · exact List.mem_append_right _ hbefore
    · rw [hunites.replaced] at hnow
      exact List.mem_append_left _ (List.mem_filter.1 hnow).1
  refine ⟨last.engine, _, by rw [← hafter]; rfl, range_eq_merged hengine hopen .all, fun hasc => ?_, ?_, ?_,
    ?_, fun hnone => hunites.live_eq_nil (hentries.trans hnone), fun hlive => ?_⟩
  · rw [shown_eq_content hengine hopen]
    exact lists_merged hasc .all
  · rw [← hafter]
    exact hunites.isEmpty_active
  · rw [hunites.state]
    rfl
  · obtain ⟨bytes, manifest, hfile, hdecode, hlist⟩ := hunites.written
    exact ⟨bytes, manifest, hkeeps hfile fun handle _ half => (FileName.segment_ne_manifest _ _).symm, hdecode,
      hlist⟩
  · obtain ⟨segment, hleft, hgeneration, hsame, hasc, hfiles⟩ := hunites.holding_segment
      (fun handle hmem => hfresh handle (List.mem_append_left _ hmem)) (hentries ▸ hlive)
    rw [hentries] at hsame hasc hfiles
    refine ⟨segment, hleft, hgeneration, hsame, hasc, fun entry => isTombstone_of_mem_merged, fun half => ?_⟩
    refine hkeeps (hfiles half) fun handle hmem half' hname => ?_
    exact hfresh handle hmem (FileName.segment_injective hname).2.symm

/-- Values and deletions in several layers, and a cursor that holds segments which a first compaction
replaces. -/
def overlaid : List Event :=
  [.load {}, .upsert (.put [1] [7]), .upsert (.put [2] [8]), .flush, .upsert (.tombstone [1]),
    .upsert (.put [3] []), .flush, .cursor "c" .all, .compact, .upsert (.put [2] [9]),
    .upsert (.tombstone [4])]

/-- Another compaction writes the two keys that are left as a segment of the fourth generation. -/
theorem compaction_is_canonical_layered : ∃ answer after left segment,
    (World.empty.run overlaid).2.step .compact = (.ok answer, after) ∧ after.engine = some left ∧
    left.live = [segment] ∧ segment.generation = 4 ∧ segment.entries = [.put [2] [9], .put [3] []] ∧
    ∀ half, after.dir.holding (FileName.segment half 4) =
      .file (Layout.file [.put [2] [9], .put [3] []] half) := by
  have hreached : Reached (World.empty.run overlaid).2 (Ledger.empty.noteAll .empty overlaid) :=
    Reached.start.run overlaid
  obtain ⟨hroom, hpresent, hdone⟩ :
      (Ledger.empty.noteAll .empty overlaid).handedOut < UInt64.size - 1 ∧
      (World.empty.run overlaid).2.engine.any (fun engine => !engine.closed &&
        !((World.empty.run overlaid).2.memory.table engine.active).isEmpty && engine.manager.next = 4 &&
        merged (World.empty.run overlaid).2.memory engine.tables engine.segments .all =
          [.put [2] [9], .put [3] []]) = true ∧
      ((World.empty.run overlaid).2.step .compact).1.isOk = true := by decide +kernel
  obtain ⟨engine, hengine, hpresent⟩ := (Option.any_eq_true _ _).1 hpresent
  simp only [Bool.and_eq_true, Bool.not_eq_true', decide_eq_true_eq] at hpresent
  obtain ⟨⟨⟨hopen, hsome⟩, hnext⟩, hmerged⟩ := hpresent
  obtain ⟨husing, -, -⟩ := hreached.using hengine hopen hroom
  obtain ⟨answer, after, hstep⟩ := step_of_isOk hdone
  obtain ⟨left, entries, hleft, hrange, -, -, -, -, -, hfiles⟩ :=
    compaction_is_canonical husing.unshared hengine hopen (.inl hsome) husing.fresh hstep
  obtain rfl : entries = [.put [2] [9], .put [3] []] := by
    rw [range_eq_merged hengine hopen, hmerged] at hrange
    cases hrange
    rfl
  obtain ⟨segment, hlive, hgeneration, hentries, -, -, hholding⟩ := hfiles (List.cons_ne_nil _ _)
  rw [hnext] at hgeneration hholding
  exact ⟨answer, after, left, segment, hstep, hleft, hlive, hgeneration, hentries, hholding⟩

/-- A directory with a segment of generation 0 whose manifest leaves just the last generation to be handed
out. -/
def worn : Snapshot :=
  let written : DiskM Unit := do
    let built ← Manager.build false 0 [.put [1] [7]]
    (Manifest.current (.ofNat (UInt64.size - 1)) (built.toList.map Segment.info)).store
  (written.run.run (.ofSnapshot .empty)).2.snapshot

/-- A flush takes the last generation. -/
def wrapped : List Event := [.load {}, .upsert (.put [2] [8]), .flush]

/-- **Once the generations have run out** a compaction may take the generation of a segment that it
replaces. It succeeds, and the segment that is left has both entries; but its files are taken away as those
of the segment before, and the directory has neither of them. -/
theorem compaction_loses_files_wrapped : ∃ engine answer after left,
    ((ofDir worn).run wrapped).2.engine = some engine ∧ engine.closed = false ∧
    engine.generations = [0, .ofNat (UInt64.size - 1)] ∧ engine.manager.next = 0 ∧
    (((ofDir worn).run wrapped).2.step (.range .all)).1 = .ok (.entries [.put [1] [7], .put [2] [8]]) ∧
    ((ofDir worn).run wrapped).2.step .compact = (.ok answer, after) ∧ after.engine = some left ∧
    left.generations = [0] ∧ ∀ half, after.dir.holding (FileName.segment half 0) = .nothing := by
  -- What can be computed is computed at once, since all of it needs the same run.
  obtain ⟨hpresent, hdone, hleft, hdata, hindex⟩ :
      ((ofDir worn).run wrapped).2.engine.any (fun engine => !engine.closed &&
        engine.generations = [0, .ofNat (UInt64.size - 1)] && engine.manager.next = 0 &&
        merged ((ofDir worn).run wrapped).2.memory engine.tables engine.segments .all =
          [.put [1] [7], .put [2] [8]]) = true ∧
      (((ofDir worn).run wrapped).2.step .compact).1.isOk = true ∧
      (((ofDir worn).run wrapped).2.step .compact).2.engine.any (fun left => left.generations = [0]) = true ∧
      (((ofDir worn).run wrapped).2.step .compact).2.dir.holding (FileName.segment .data 0) = .nothing ∧
      (((ofDir worn).run wrapped).2.step .compact).2.dir.holding (FileName.segment .index 0) =
        .nothing := by decide +kernel
  have hgone : ∀ half, (((ofDir worn).run wrapped).2.step .compact).2.dir.holding
      (FileName.segment half 0) = .nothing := by
    rintro (_ | _)
    · exact hdata
    · exact hindex
  obtain ⟨engine, hengine, hpresent⟩ := (Option.any_eq_true _ _).1 hpresent
  simp only [Bool.and_eq_true, Bool.not_eq_true', decide_eq_true_eq] at hpresent
  obtain ⟨⟨⟨hopen, hgenerations⟩, hnext⟩, hmerged⟩ := hpresent
  have hrange := range_eq_merged hengine hopen .all
  rw [hmerged] at hrange
  obtain ⟨answer, after, hstep⟩ := step_of_isOk hdone
  rw [hstep] at hleft hgone
  obtain ⟨left, hafter, hleft⟩ := (Option.any_eq_true _ _).1 hleft
  exact ⟨engine, answer, after, left, hengine, hopen, hgenerations, hnext, hrange, hstep, hafter,
    of_decide_eq_true hleft, hgone⟩

end World

end LsmTree
