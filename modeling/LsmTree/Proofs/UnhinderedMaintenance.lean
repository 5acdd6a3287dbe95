import LsmTree.Proofs.CrashAtomicity
import LsmTree.Proofs.FailedMaintenance

/-!
# Maintenance that nothing stands in the way of

A step of maintenance fails only if a directory is under a name that it wants, or if what it writes does
not fit the formats. Nothing that earlier steps have left makes it fail, whether they failed or not: the
tables it writes out hold entries in order, and the generations it takes were never used before.

* **`Maintenance.Workspace.wanted`** — the names that a step wants, and **`Maintenance.Workspace.Free`** — there
  is room for them, and no directory is under any of them;
* **`Maintenance.not_hinderedAt`**, **`Maintenance.not_hindered_merge`** — so no obstacle is met;
* **`World.Reached.maintains`** — and every flush, compaction and closing of an open engine succeeds, and
  then the directory can be opened and has all writes.
-/

namespace LsmTree

open Maintenance (Workspace Flushed)

/-! ## What fits the formats -/

namespace Manifest

theorem length_payload (next : UInt64) (segments : List SegmentMeta) :
    (current next segments).payload.length = 20 + (segments.flatMap SegmentMeta.encode).length := by
  simp only [current, payload, List.length_append, Bytes.length_word]

/-- A part of a list of segments takes no more room in a manifest than all of it. -/
theorem length_payload_le {listed all : List Segment} (h : listed <:+ all) (next next' : UInt64) :
    (current next (listed.reverse.map Segment.info)).payload.length ≤
      (current next' (all.reverse.map Segment.info)).payload.length := by
  obtain ⟨newer, rfl⟩ := h
  simp only [length_payload, List.reverse_append, List.map_append, List.flatMap_append, List.length_append]
  omega

theorem encode_ne_error {manifest : Manifest} (h : manifest.payload.length < UInt32.size) (error : Error) :
    manifest.encode ≠ .error error := by
  rw [encode, if_pos h]
  rintro ⟨⟩

end Manifest

/-- Segments that fit the formats: each offset into their data, and the manifest that lists them. -/
structure Fits (segments : List Segment) : Prop where
  data : ∀ segment ∈ segments, segment.data.length < Layout.offsetSize
  manifest : ∀ next, (Manifest.current next (segments.reverse.map Segment.info)).payload.length < UInt32.size

/-- The next generation does not change how much room a manifest takes. -/
theorem Fits.of_first {segments : List Segment}
    (hdata : ∀ segment ∈ segments, segment.data.length < Layout.offsetSize)
    (hmanifest : (Manifest.current 0 (segments.reverse.map Segment.info)).payload.length < UInt32.size) :
    Fits segments :=
  ⟨hdata, fun _ =>
    Nat.lt_of_le_of_lt (Manifest.length_payload_le (List.suffix_refl _) _ _) hmanifest⟩

namespace Maintenance

variable {start : Workspace}

/-! ## Obstacles that are not met -/

/-- How many generations a step may take: one for each table that waits, and one for a compaction. -/
def Workspace.takes (workspace : Workspace) : Event → Nat
  | .compact => 1
  | _ => (workspace.engine.waiting workspace.memory).length

/-- The names that a step wants: that of a new manifest, and those of the generations that it takes. -/
def Workspace.wanted (workspace : Workspace) (event : Event) : List String :=
  FileName.temporary FileName.manifest ::
    (List.range (workspace.takes event)).flatMap fun n => FileName.ofGeneration (workspace.next + .ofNat n)

/-- The segments that a step is to leave, newest first. -/
def Workspace.planned (workspace : Workspace) : Event → List Segment
  | .compact => workspace.union?.toList
  | _ => segmentsOf workspace.memory workspace.next (workspace.engine.waiting workspace.memory) ++
      workspace.engine.live

/-- What is planned does not depend on the directory. -/
theorem Workspace.planned_withDisk (disk : Disk) (event : Event) :
    ({ start with disk } : Workspace).planned event = start.planned event := by
  cases event with
  | compact =>
    have hmerge : ({ start with disk } : Workspace).merge = start.merge := by
      unfold Workspace.merge Workspace.frozen
      dsimp only
      split <;> rfl
    show (segmentOf? start.next _).toList = (segmentOf? start.next _).toList
    rw [hmerge]
  | _ => rfl

/-- There is room for each name that a step wants, and no directory is under it. -/
def Workspace.Free (workspace : Workspace) (event : Event) : Prop :=
  ∀ name ∈ workspace.wanted event,
    workspace.disk.fits name = true ∧ workspace.snapshot.holding name ≠ .folder

theorem Workspace.Free.manifest {event : Event} (h : start.Free event) :
    start.snapshot.holding (FileName.temporary FileName.manifest) ≠ .folder :=
  (h _ List.mem_cons_self).2

theorem Workspace.Free.generation {event : Event} (h : start.Free event) {n : Nat}
    (hlt : n < start.takes event) : ∀ name ∈ FileName.ofGeneration (start.next + .ofNat n),
      start.snapshot.holding name ≠ .folder := fun name hname =>
  (h name (List.mem_cons_of_mem _ (List.mem_flatMap.2 ⟨n, List.mem_range.2 hlt, hname⟩))).2

/-- **A table** can be written out. -/
theorem not_hinderedAt {written rest : List Nat} {table : Nat}
    (hmanifest : start.snapshot.holding FileName.manifest ≠ .folder)
    (htemporary : start.snapshot.holding (FileName.temporary FileName.manifest) ≠ .folder)
    (hfree : ∀ name ∈ FileName.ofGeneration (start.next + .ofNat written.length),
      start.snapshot.holding name ≠ .folder)
    (hfits : Fits (segmentsOf start.memory start.next (written ++ table :: rest) ++ start.engine.live)) :
    ¬ start.HinderedAt written table := by
  -- The tables up to this one make a last part of the segments planned, which is what the manifest would list.
  have hsplit : segmentsOf start.memory start.next (written ++ table :: rest) =
      segmentsOf start.memory (start.next + .ofNat (written ++ [table]).length) rest ++
        segmentsOf start.memory start.next (written ++ [table]) := by
    rw [List.append_cons, segmentsOf_append]
  rw [hsplit, List.append_assoc] at hfits
  rintro (hbuild | ⟨error, hencode⟩ | hfolder | hfolder)
  · rcases hbuild with ⟨name, hname, hfolder⟩ | hasc | hlong
    · exact hfree name hname hfolder
    · exact hasc (start.memory.table table).ascending
    · have hmem : Segment.ofEntries (start.next + .ofNat written.length) (start.memory.table table).entries ∈
          segmentsOf start.memory start.next (written ++ [table]) := by
        rw [segmentsOf_append]
        exact List.mem_append_left _ (List.mem_singleton.2 rfl)
      exact Nat.not_lt.2 hlong (hfits.data _ (List.mem_append_right _ (List.mem_append_left _ hmem)))
  · refine Manifest.encode_ne_error (Nat.lt_of_le_of_lt ?_ (hfits.manifest 0)) error hencode
    exact Manifest.length_payload_le (List.suffix_append _ _) _ _
  · exact htemporary hfolder
  · exact hmanifest hfolder

/-- **What all layers come to** can be written out. -/
theorem not_hindered_merge (hfree : start.Free .compact)
    (hmanifest : start.snapshot.holding FileName.manifest ≠ .folder)
    (hasc : ∀ segment ∈ start.engine.live, Ascending segment.entries)
    (hfits : Fits start.union?.toList) : ¬ start.frozen.Hindered start.merge start.union?.toList := by
  rw [Workspace.Hindered, Workspace.next, Workspace.snapshot, frozen_manager, frozen_disk]
  rintro (hbuild | ⟨error, hencode⟩ | hfolder | hfolder)
  · rcases hbuild with ⟨name, hname, hfolder⟩ | hunsorted | hlong
    · refine hfree.generation Nat.zero_lt_one name ?_ hfolder
      rwa [show start.next + .ofNat 0 = start.next from UInt64.add_zero _]
    · refine hunsorted (merged_ascending fun handle hmem => hasc _ ?_)
      rw [frozen_segments] at hmem
      exact List.mem_map_of_mem hmem
    · -- If nothing is left no segment is planned, and no data is too long.
      by_cases hnone : start.merge.isEmpty = true
      · rw [List.isEmpty_iff.1 hnone] at hlong
        exact absurd hlong (by decide)
      · have hunion : start.union? = some (Segment.ofEntries start.next start.merge) := if_neg hnone
        rw [hunion] at hfits
        exact Nat.not_lt.2 hlong (hfits.data _ (List.mem_singleton.2 rfl))
  · exact Manifest.encode_ne_error (hfits.manifest _) error hencode
  · exact hfree.manifest hfolder
  · exact hmanifest hfolder

/-- A flush or a closing gets to the end. -/
theorem Flushes.succeeds {result : Except Error Unit} {after : Workspace} (h : Flushes start result after)
    (hmanifest : start.snapshot.holding FileName.manifest ≠ .folder) (hfree : start.Free .flush)
    (hfits : Fits (start.planned .flush)) :
    result = .ok () ∧ Flushed (start.engine.waiting start.memory) [] start after := by
  cases result with
  | ok _ => exact ⟨rfl, h⟩
  | error error =>
    obtain ⟨written, table, rest, hqueue, -, -, hhindered⟩ := h
    have hlt : written.length < (start.engine.waiting start.memory).length := by
      rw [← hqueue, List.length_append, List.length_cons]
      omega
    replace hfits : Fits (segmentsOf start.memory start.next (start.engine.waiting start.memory) ++
      start.engine.live) := hfits
    rw [← hqueue] at hfits
    exact absurd hhindered (not_hinderedAt hmanifest hfree.manifest (hfree.generation hlt) hfits)

/-- Each entry of a table that was written out is in a segment. -/
theorem Flushed.mem_live {written rest : List Nat} {after : Workspace}
    (h : Flushed written rest start after) (hfits : Fits after.engine.live) {id : Nat} (hid : id ∈ written)
    {entry : Entry} (hentry : entry ∈ (start.memory.table id).entries) :
    ∃ segment ∈ after.engine.live, entry ∈ segment.entries := by
  obtain ⟨generation, hsegment⟩ : ∃ generation,
      Segment.ofEntries generation (start.memory.table id).entries ∈ after.engine.live := by
    obtain ⟨generation, hmem⟩ := mem_segmentsOf hid
    exact ⟨generation, h.live ▸ List.mem_append_left _ hmem⟩
  refine ⟨_, hsegment, ?_⟩
  rw [Segment.entries_ofEntries (hfits.data _ hsegment)]
  exact hentry

/-! ## The name of a new manifest

It is free again after each step. -/

theorem Flushed.holding_temporary {written rest : List Nat} {after : Workspace}
    (h : Flushed written rest start after) :
    after.snapshot.holding (FileName.temporary FileName.manifest) =
      start.snapshot.holding (FileName.temporary FileName.manifest) := by
  by_cases hnone : written = []
  · exact h.untouched hnone _
  · refine (h.committed hnone).same _ FileName.temporary_manifest_ne_manifest fun hmem => ?_
    obtain ⟨segment, -, half, hname⟩ := mem_filesOf.1 hmem
    exact FileName.temporary_manifest_ne_segment _ _ hname

theorem Unites.holding_temporary {inUse : Handle → Bool} {replaced : List Handle} {after : Workspace}
    (h : Unites inUse start replaced after) (hclear : start.Clear)
    (hfree : start.snapshot.holding (FileName.temporary FileName.manifest) ≠ .folder) :
    after.snapshot.holding (FileName.temporary FileName.manifest) ≠ .folder := by
  obtain ⟨s, hcommits, hremoved⟩ := h.files
  rw [Ne, hremoved.folder_iff,
    (Extends.of_commits hcommits hclear.wanted).same _ FileName.temporary_manifest_ne_manifest]
  · exact hfree
  · intro hmem
    obtain ⟨segment, -, half, hname⟩ := mem_filesOf.1 hmem
    exact FileName.temporary_manifest_ne_segment _ _ hname

end Maintenance

namespace World

variable {world : World} {ledger : Ledger} {engine : Engine}

/-! ## Success -/

theorem Using.holding_manifest (h : Using world ledger engine) :
    world.dir.holding FileName.manifest ≠ .folder := by
  obtain ⟨bytes, manifest, hfile, -⟩ := h.manifest
  rw [hfile]
  rintro ⟨⟩

/-- **A flush** succeeds. -/
theorem Using.flush_succeeds (h : Using world ledger engine) (hclear : (world.workspace engine).Clear)
    (hfilled : engine.Filled world.memory)
    (hroom : (ledger.note world .flush).handedOut < UInt64.size - 1)
    (hfree : (world.workspace engine).Free .flush) (hfits : Fits ((world.workspace engine).planned .flush)) :
    ∃ last, world.act .flush = (.ok .done, world.after last) ∧
      Flushed (engine.waiting world.memory) [] (world.workspace engine) last := by
  obtain ⟨result, last, hact, hflushes⟩ := h.act_flush hclear hfilled hroom
  obtain ⟨rfl, hflushed⟩ := hflushes.succeeds h.holding_manifest hfree hfits
  exact ⟨last, hact, hflushed⟩

/-- **A closing** succeeds. -/
theorem Using.close_succeeds (h : Using world ledger engine) (hclear : (world.workspace engine).Clear)
    (hfilled : engine.Filled world.memory)
    (hroom : (ledger.note world .close).handedOut < UInt64.size - 1)
    (hfree : (world.workspace engine).Free .close) (hfits : Fits ((world.workspace engine).planned .close)) :
    ∃ last, world.act .close = (.ok .done, world.after last.emptied) ∧
      Flushed (engine.waiting world.memory) [] (world.workspace engine) last := by
  obtain ⟨result, last, hact, hflushes⟩ := h.act_close hclear hfilled hroom
  obtain ⟨rfl, hflushed⟩ := hflushes.succeeds h.holding_manifest hfree hfits
  exact ⟨last, hact, hflushed⟩

/-- **A compaction** succeeds. -/
theorem Using.compact_succeeds (h : Using world ledger engine)
    (hfree : (world.workspace engine).Free .compact)
    (hfits : Fits ((world.workspace engine).planned .compact)) : ∃ replaced last,
      world.act .compact = (.ok .done, { world.after last with replaced := world.replaced ++ replaced }) ∧
      Maintenance.Compacts world.isHeld (world.workspace engine) (.ok replaced) last := by
  obtain ⟨error | replaced, last, hact, hcompacts⟩ := act_compact h.present h.opened h.unshared
  · exact absurd hcompacts.hindered
      (Maintenance.not_hindered_merge hfree h.holding_manifest h.sound.ascending hfits)
  · exact ⟨replaced, last, hact, hcompacts⟩

/-- **Maintenance** succeeds, and leaves the name of a new manifest free. -/
theorem Using.succeeds (h : Using world ledger engine) (hclear : (world.workspace engine).Clear)
    (hfilled : engine.Filled world.memory) {event : Event} (hpersists : event.persists = true)
    (hroom : (ledger.note world event).handedOut < UInt64.size - 1)
    (hfree : (world.workspace engine).Free event)
    (hfits : Fits ((world.workspace engine).planned event)) :
    (world.act event).1 = .ok .done ∧ ¬ Blocked (world.act event).2.dir := by
  cases event with
  | flush =>
    obtain ⟨last, hact, hflushed⟩ := h.flush_succeeds hclear hfilled hroom hfree hfits
    rw [hact]
    exact ⟨rfl, fun hblocked => hfree.manifest (hflushed.holding_temporary.symm.trans hblocked)⟩
  | close =>
    obtain ⟨last, hact, hflushed⟩ := h.close_succeeds hclear hfilled hroom hfree hfits
    rw [hact]
    exact ⟨rfl, fun hblocked => hfree.manifest (hflushed.holding_temporary.symm.trans hblocked)⟩
  | compact =>
    obtain ⟨replaced, last, hact, ⟨-, -, rfl⟩ | ⟨-, hunites⟩⟩ := h.compact_succeeds hfree hfits
    · rw [hact]
      have hsame : (world.workspace engine).frozen.snapshot = (world.workspace engine).snapshot :=
        congrArg Disk.snapshot Maintenance.frozen_disk
      refine ⟨rfl, fun hblocked => hfree.manifest ?_⟩
      rw [← hsame]
      exact hblocked
    · rw [hact]
      exact ⟨rfl, hunites.holding_temporary hclear hfree.manifest⟩
  | _ => cases hpersists

/-- A directory whose writes are all durable can be opened and has them. -/
theorem Consistent.reopens (h : Consistent world ledger) (hengine : world.engine.isSome = true)
    (hdurable : ledger.durable = ledger.writes.length) (hroom : ledger.handedOut < UInt64.size - 1)
    (hfree : ¬ Blocked world.dir) : Reopens (Content.after ledger.base ledger.writes) world.dir := by
  have hall : ∀ {segments}, ledger.Settles segments →
      Content.ofSegments segments = Content.after ledger.base ledger.writes := by
    rintro segments ⟨settled, hle, -, hcontent⟩
    rw [hcontent, List.take_of_length_le (hdurable ▸ hle)]
  rcases h with ⟨engine, husing⟩ | hidle
  · exact hall husing.settles ▸ husing.reopens hroom hfree
  · obtain ⟨engine, hengine⟩ := Option.isSome_iff_exists.1 hengine
    obtain ⟨recorded, segments, hrecoverable, hrecorded, -, hsettles⟩ := hidle.stored
    obtain ⟨-, -, -, bytes, hfile⟩ := hidle.closed engine hengine
    refine hall hsettles ▸ World.reopens hrecoverable hidle.tidy hrecorded (Nat.succ_pos _) (by omega) hfree ?_
    rw [hfile]
    rintro ⟨⟩

/-- **Maintenance never fails without a reason.** From a directory that was empty at the start and has only
been used by engines of this kind, after any steps of maintenance that failed: if no directory is under a
name that maintenance wants and all that it writes fits the formats, an open engine flushes, compacts and
closes with success. A flush leaves no table with entries, and all that was in one, like all that was
written before, is in the segments that the manifest lists. The directory can then be opened, with or
without a verification, and has all writes. -/
theorem Reached.maintains (h : Reached world ledger) (hengine : world.engine = some engine)
    (hopen : engine.closed = false) {event : Event} (hpersists : event.persists = true)
    (hroom : (ledger.note world event).handedOut < UInt64.size - 1)
    (hfree : (world.workspace engine).Free event)
    (hfits : Fits ((world.workspace engine).planned event)) :
    ∃ after left, world.step event = (.ok .done, after) ∧ after.engine = some left ∧
      Reopens (Content.after ledger.base ledger.writes) after.dir ∧
      (event = .flush → left.queue = [] ∧ (after.memory.table left.active).isEmpty = true ∧
        (∃ bytes manifest, after.dir.holding FileName.manifest = .file bytes ∧
          Manifest.decode bytes = .ok manifest ∧ manifest.segments = left.live.reverse.map Segment.info) ∧
        (∀ segment ∈ engine.live, segment ∈ left.live) ∧
        (∀ id ∈ engine.queue ++ [engine.active], ∀ entry ∈ (world.memory.table id).entries,
          ∃ segment ∈ left.live, entry ∈ segment.entries) ∧
        Content.ofSegments left.live = Content.after ledger.base ledger.writes) := by
  have hbefore := Nat.lt_of_le_of_lt (handedOut_le_note event) hroom
  obtain ⟨husing, hclear, hfilled⟩ := h.using hengine hopen hbefore
  obtain ⟨hanswer, hunblocked⟩ := husing.succeeds hclear hfilled hpersists hroom hfree hfits
  have hconsistent := (h.consistent hbefore).step event hroom
  obtain ⟨left, hleft⟩ : ∃ left, (world.act event).2.engine = some left := by
    obtain ⟨-, -, -, workspace, -, -, hengine, -⟩ := husing.maintained hpersists
    exact ⟨_, hengine⟩
  refine ⟨_, left, Prod.ext hanswer rfl, hleft, ?_, ?_⟩
  · -- All writes are noted as durable now, so a reopening finds them.
    have hunshared := ((h.consistent hbefore).act event hroom).unshared
    rw [note_ok hpersists hanswer] at hroom hconsistent
    refine hconsistent.reopens (Option.isSome_iff_exists.2 ⟨left, hleft⟩) rfl hroom fun hblocked => ?_
    exact hunblocked ((releaseFiles_unheld hunshared).folder_iff.1 hblocked)
  · rintro rfl
    obtain ⟨last, hact, hflushed⟩ := husing.flush_succeeds hclear hfilled hroom hfree hfits
    have hempty := husing.isEmpty_active hpersists hleft
    rw [hact] at hleft
    obtain rfl : last.engine = left := Option.some.inj hleft
    rw [note_ok hpersists hanswer, step_eq, hact] at hconsistent
    rcases hconsistent with ⟨engine', hafter⟩ | hidle
    · obtain rfl : last.engine = engine' := Option.some.inj hafter.present
      obtain ⟨settled, hle, -, hcontent⟩ := hafter.settles
      have hfits : Fits last.engine.live := hflushed.live ▸ hfits
      refine ⟨hflushed.queue, hempty, ?_, fun segment hmem => ?_, fun id hid entry hentry => ?_, ?_⟩
      · rw [step_eq, hact]
        exact hafter.manifest
      · rw [hflushed.live]
        exact List.mem_append_right _ hmem
      · exact hflushed.mem_live hfits (Engine.mem_waiting hid hentry) hentry
      · rw [hcontent, List.take_of_length_le hle]
    · -- A flush does not close the engine.
      have hserving := husing.serving.flush
      rw [hact] at hserving
      obtain ⟨engine', -, hengine', hopen', -⟩ := hserving.serves
      rw [(hidle.closed engine' hengine').1] at hopen'
      cases hopen'

end World

end LsmTree
