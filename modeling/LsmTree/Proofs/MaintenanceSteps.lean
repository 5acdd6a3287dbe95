import LsmTree.Proofs.Maintaining
import Mathlib.Data.List.Nodup

/-!
# The steps of maintenance

A flush, a compaction and a closing begin by putting the active table at the end of the queue. From there
on each of them writes waiting tables out: a flush and a closing one after the other, a compaction all at
once together with the segments. So one relation describes what each of them does, whether it fails or
not, and another what a crash finds:

* **`Workspace.frozen`** — the workspace after the active table was put into the queue;
* **`Maintenance.runs_flush`**, **`Maintenance.runs_compact`**, **`Maintenance.runs_close`** — the steps.
-/

namespace LsmTree

open Snapshot (Within Removed Gains)

/-- The tables of an engine are in the memory, the one that takes the writes is none of those that wait,
and the keys of each segment are in order. -/
structure Engine.Sound (memory : Memory) (engine : Engine) : Prop where
  active : engine.active < memory.tables.length
  waiting : ∀ id ∈ engine.queue, id < memory.tables.length ∧ id ≠ engine.active
  ascending : ∀ segment ∈ engine.live, Ascending segment.entries

namespace Maintenance

variable {start : Workspace}

/-! ## Freezing -/

/-- The workspace after the active table was put at the end of the queue, unless it is empty. -/
def Workspace.frozen (workspace : Workspace) : Workspace :=
  if (workspace.memory.table workspace.engine.active).isEmpty then workspace
  else { workspace with
    memory := workspace.memory.newTable.2
    engine := { workspace.engine with
      active := workspace.memory.newTable.1
      queue := workspace.engine.queue ++ [workspace.engine.active] } }

theorem run_freeze : freeze.run start = ((), start.frozen) := by
  unfold Workspace.frozen
  by_cases hempty : (start.memory.table start.engine.active).isEmpty = true
  · simp [freeze, hempty]
    rfl
  · simp [freeze, hempty]
    rfl

theorem frozen_eq : start.frozen = { start with
    memory := start.frozen.memory
    engine := { start.engine with
      active := start.frozen.engine.active, queue := start.frozen.engine.queue } } := by
  unfold Workspace.frozen
  split <;> rfl

@[simp] theorem frozen_disk : start.frozen.disk = start.disk := by
  rw [frozen_eq]

@[simp] theorem frozen_segments : start.frozen.engine.segments = start.engine.segments := by
  rw [frozen_eq]

@[simp] theorem frozen_live : start.frozen.engine.live = start.engine.live := by
  rw [frozen_eq]
  rfl

@[simp] theorem frozen_manager : start.frozen.engine.manager = start.engine.manager := by
  rw [frozen_eq]

@[simp] theorem frozen_closed : start.frozen.engine.closed = start.engine.closed := by
  rw [frozen_eq]

@[simp] theorem frozen_openings : start.frozen.memory.openings = start.memory.openings := by
  unfold Workspace.frozen
  split <;> rfl

theorem keeps_frozen {recorded : UInt64} (h : start.Keeps recorded) : start.frozen.Keeps recorded := by
  rw [Workspace.Keeps, Workspace.next, Workspace.snapshot, frozen_manager, frozen_live, frozen_disk]
  exact h

@[simp] theorem table_frozen (id : Nat) : start.frozen.memory.table id = start.memory.table id := by
  unfold Workspace.frozen
  split
  · rfl
  · exact Memory.table_newTable _ _

theorem isEmpty_frozen : (start.frozen.memory.table start.frozen.engine.active).isEmpty = true := by
  unfold Workspace.frozen
  split
  · next hempty => exact hempty
  · exact Memory.isEmpty_newTable _

/-- The queue after the freeze holds the table that took the writes, unless that is empty. -/
theorem frozen_queue : start.frozen.engine.queue = start.engine.queue ∧
      (start.memory.table start.engine.active).isEmpty = true ∨
    start.frozen.engine.queue = start.engine.queue ++ [start.engine.active] := by
  unfold Workspace.frozen
  split
  · next hempty => exact .inl ⟨rfl, hempty⟩
  · exact .inr rfl

/-- **Freezing** changes nothing of what the engine has for a key. -/
theorem overlay_frozen : Content.overlay start.frozen.memory start.frozen.engine.queue.reverse
      (Content.ofSegments start.frozen.engine.live) = start.engine.content start.memory := by
  rw [frozen_live, Content.overlay_congr (fun id _ => table_frozen id), Engine.content_eq_overlay]
  rcases frozen_queue with ⟨hqueue, hempty⟩ | hqueue
  · rw [hqueue, Content.overlay_singleton_of_isEmpty hempty]
  · rw [hqueue, List.reverse_append, Content.overlay_append]
    rfl

theorem sound_frozen (h : start.engine.Sound start.memory) :
    start.frozen.engine.Sound start.frozen.memory := by
  refine ⟨?_, ?_, ?_⟩
  · unfold Workspace.frozen
    split
    · exact h.active
    · simp [Memory.newTable]
  · unfold Workspace.frozen
    split
    · exact h.waiting
    · intro id hmem
      have hlt : id < start.memory.tables.length := by
        rcases List.mem_append.1 hmem with hold | hnew
        · exact (h.waiting id hold).1
        · exact List.mem_singleton.1 hnew ▸ h.active
      refine ⟨?_, Nat.ne_of_lt hlt⟩
      simp only [Memory.newTable, List.length_append, List.length_singleton]
      omega
  · rw [frozen_live]
    exact h.ascending

/-- A step of maintenance has begun with a freeze and then written out the oldest of the waiting tables,
all of them if it is complete. -/
structure Progress (start : Workspace) (handed : Nat) (complete : Prop) (after : Workspace) : Prop where
  drained : ∃ written rest, written ++ rest = start.frozen.engine.queue ∧
    Drained written rest handed start.frozen after ∧ (complete → rest = [])
  handed_le : handed ≤ start.engine.queue.length + 1
  waiting_le : after.engine.queue.length ≤ start.engine.queue.length + handed

theorem length_frozen_queue : start.frozen.engine.queue.length ≤ start.engine.queue.length + 1 := by
  rcases frozen_queue with ⟨hqueue, -⟩ | hqueue
  · rw [hqueue]
    exact Nat.le_succ _
  · exact Nat.le_of_eq (by rw [hqueue, List.length_append, List.length_singleton])

/-- What is written out of the queue is progress, if it takes at most one generation for each table, and
none only for an empty queue. -/
theorem Progress.of_drained {written rest : List Nat} {handed : Nat} {complete : Prop}
    {after : Workspace} (hqueue : written ++ rest = start.frozen.engine.queue)
    (hdrained : Drained written rest handed start.frozen after) (hall : complete → rest = [])
    (hle : handed ≤ start.engine.queue.length + 1)
    (hpos : start.frozen.engine.queue ≠ [] → 0 < handed) : Progress start handed complete after where
  drained := ⟨written, rest, hqueue, hdrained, hall⟩
  handed_le := hle
  waiting_le := by
    rw [hdrained.queue]
    cases hrest : rest with
    | nil => exact Nat.zero_le _
    | cons table others =>
      have hlength : rest.length ≤ start.frozen.engine.queue.length := by
        rw [← hqueue, List.length_append]
        exact Nat.le_add_left _ _
      have hne : start.frozen.engine.queue ≠ [] := by
        rw [← hqueue, hrest]
        simp
      have hfirst := hpos hne
      have hfrozen : start.frozen.engine.queue.length ≤ start.engine.queue.length + 1 :=
        length_frozen_queue
      rw [hrest] at hlength
      omega

theorem Progress.closed {handed : Nat} {complete : Prop} {after : Workspace}
    (h : Progress start handed complete after) : after.engine.closed = start.engine.closed := by
  obtain ⟨written, rest, -, hdrained, -⟩ := h.drained
  rw [hdrained.closed, frozen_closed]

theorem Progress.unshared {handed : Nat} {complete : Prop} {after : Workspace}
    (h : Progress start handed complete after) : after.snapshot.Unshared := by
  obtain ⟨written, rest, -, hdrained, -⟩ := h.drained
  exact hdrained.unshared

theorem Progress.next {handed : Nat} {complete : Prop} {after : Workspace}
    (h : Progress start handed complete after) : after.next = start.next + .ofNat handed := by
  obtain ⟨written, rest, -, hdrained, -⟩ := h.drained
  rw [hdrained.next, Workspace.next, frozen_manager]

theorem Progress.keeps {handed : Nat} {complete : Prop} {after : Workspace}
    {recorded : UInt64} (h : Progress start handed complete after) (hkeeps : start.Keeps recorded)
    (hroom : start.next.toNat + handed < UInt64.size) :
    ∃ recorded', recorded ≤ recorded' ∧ after.Keeps recorded' := by
  obtain ⟨written, rest, -, hdrained, -⟩ := h.drained
  refine hdrained.keeps (keeps_frozen hkeeps) ?_
  rw [Workspace.next, frozen_manager]
  exact hroom

theorem Progress.fresh {handed : Nat} {complete : Prop} {after : Workspace}
    (h : Progress start handed complete after) (hroom : start.next.toNat + handed < UInt64.size) :
    ∀ segment ∈ after.engine.live, segment ∈ start.engine.live ∨
      start.next ≤ segment.generation := by
  obtain ⟨written, rest, -, hdrained, -⟩ := h.drained
  intro segment hmem
  have hfresh := hdrained.fresh (by rwa [Workspace.next, frozen_manager]) segment hmem
  rwa [frozen_live, Workspace.next, frozen_manager] at hfresh

/-- A file that is new is the manifest or one of a segment of the engine. -/
theorem Progress.gains {handed : Nat} {complete : Prop} {after : Workspace}
    (h : Progress start handed complete after) :
    Gains (FileName.manifest :: filesOf after.engine.live) start.snapshot after.snapshot := by
  obtain ⟨written, rest, -, hdrained, -⟩ := h.drained
  have hgains := hdrained.gains
  rwa [Workspace.snapshot, frozen_disk] at hgains

theorem Progress.openings {handed : Nat} {complete : Prop} {after : Workspace}
    (h : Progress start handed complete after) : start.memory.openings ≤ after.memory.openings := by
  obtain ⟨written, rest, -, hdrained, -⟩ := h.drained
  have hopenings := hdrained.openings
  rwa [frozen_openings] at hopenings

theorem Progress.adopted {handed : Nat} {complete : Prop} {after : Workspace}
    (h : Progress start handed complete after) : ∀ handle ∈ after.engine.segments,
      handle ∈ start.engine.segments ∨ start.memory.Numbers after.memory handle := by
  obtain ⟨written, rest, -, hdrained, -⟩ := h.drained
  intro handle hmem
  rcases hdrained.adopted handle hmem with hold | ⟨hle, hlt⟩
  · rw [frozen_segments] at hold
    exact .inl hold
  · rw [frozen_openings] at hle
    exact .inr ⟨hle, hlt⟩

/-- Files of generations before are as they were, if they are not of segments that were replaced. -/
theorem Progress.spared {handed : Nat} {complete : Prop} {after : Workspace}
    (h : Progress start handed complete after) (hroom : start.next.toNat + handed < UInt64.size)
    {generation : UInt64} (hold : generation < start.next)
    (hlisted : (∃ segment ∈ start.engine.live, segment.generation = generation) →
      ∃ segment ∈ after.engine.live, segment.generation = generation) (half : Half) :
    after.snapshot.holding (FileName.segment half generation) =
      start.snapshot.holding (FileName.segment half generation) := by
  obtain ⟨written, rest, -, hdrained, -⟩ := h.drained
  have hspared := hdrained.spared (by rwa [Workspace.next, frozen_manager]) generation
    (by rwa [Workspace.next, frozen_manager])
  rw [frozen_live, Workspace.snapshot, Workspace.snapshot, frozen_disk] at hspared
  exact hspared hlisted half

theorem Progress.mono {handed : Nat} {complete complete' : Prop} {after : Workspace}
    (h : Progress start handed complete after) (himp : complete' → complete) :
    Progress start handed complete' after := by
  obtain ⟨written, rest, hqueue, hdrained, hall⟩ := h.drained
  exact ⟨⟨written, rest, hqueue, hdrained, fun hc => hall (himp hc)⟩, h.handed_le, h.waiting_le⟩

/-- Progress on which no segment was replaced. -/
structure Growth (start : Workspace) (handed : Nat) (complete : Prop) (after : Workspace) : Prop
    extends Progress start handed complete after where
  older : start.engine.segments <:+ after.engine.segments

theorem Growth.mono {handed : Nat} {complete complete' : Prop} {after : Workspace}
    (h : Growth start handed complete after) (himp : complete' → complete) :
    Growth start handed complete' after :=
  ⟨h.toProgress.mono himp, h.older⟩

/-! ## Flushing -/

theorem run_flushAll :
    flushAll.run.run start = (flushTables start.frozen.engine.queue).run.run start.frozen := by
  have hrun : flushAll.run.run start =
      (flushTables (freeze.run start).2.engine.queue).run.run (freeze.run start).2 := rfl
  rw [hrun, run_freeze]

theorem run_requireOpen_bind {α : Type} (next : Unit → MaintenanceM α)
    (hopen : start.engine.closed = false) :
    (requireOpen >>= next).run.run start = (next ()).run.run start := by
  have hrun : requireOpen.run.run start = (.ok (), start) := by
    refine (run_get_bind fun workspace =>
      if workspace.engine.closed then throw .closed else pure ()).trans ?_
    rw [hopen]
    rfl
  rw [ExceptT.run_bind, StateT.run_bind, hrun]
  rfl

theorem run_requireOpen_bind_closed {α : Type} (next : Unit → MaintenanceM α)
    (hclosed : start.engine.closed = true) :
    (requireOpen >>= next).run.run start = (.error .closed, start) := by
  have hrun : requireOpen.run.run start = (.error .closed, start) := by
    refine (run_get_bind fun workspace =>
      if workspace.engine.closed then throw .closed else pure ()).trans ?_
    rw [hclosed]
    rfl
  rw [ExceptT.run_bind, StateT.run_bind, hrun]
  rfl

theorem run_flush (hopen : start.engine.closed = false) : flush.run.run start = flushAll.run.run start :=
  run_requireOpen_bind _ hopen

theorem run_flush_closed (hclosed : start.engine.closed = true) :
    flush.run.run start = (.error .closed, start) :=
  run_requireOpen_bind_closed _ hclosed

/-- How many generations a flush hands out. -/
def flushed (workspace : Workspace) : Nat :=
  attempts workspace.frozen.engine.queue workspace.frozen

/-- What writing everything out does, whether it gets to the end or not. -/
theorem runs_flushAll (hu : start.snapshot.Unshared) (hsound : start.engine.Sound start.memory) :
    Runs flushAll.run start
      (fun result after => Growth start (flushed start) (result = .ok ()) after)
      (Interrupted (· <+: start.frozen.engine.queue) (flushed start) start.frozen) := by
  have hu' : start.frozen.snapshot.Unshared := by
    rw [Workspace.snapshot, frozen_disk]
    exact hu
  refine Runs.of_run_eq (flushTables start.frozen.engine.queue).run start.frozen frozen_disk run_flushAll
    ((runs_flushTables rfl hu' (sound_frozen hsound).ascending).mono ?_ fun _ ht => ht)
  rintro result after ⟨holder, written, rest, hqueue, hdrained, hall⟩ -
  rw [frozen_segments] at holder
  exact ⟨.of_drained hqueue hdrained hall
    (Nat.le_trans (attempts_le _ _) length_frozen_queue) fun hne => attempts_pos hne _, holder⟩

/-- **A flush** of an open engine writes its tables out, oldest first. -/
theorem runs_flush (hopen : start.engine.closed = false) (hu : start.snapshot.Unshared)
    (hsound : start.engine.Sound start.memory) :
    Runs flush.run start
      (fun result after => Growth start (flushed start) (result = .ok ()) after)
      (Interrupted (· <+: start.frozen.engine.queue) (flushed start) start.frozen) :=
  Runs.of_run_eq flushAll.run start rfl (run_flush hopen) (runs_flushAll hu hsound)

/-! ## Closing -/

/-- The workspace after its engine has let go of all data. -/
def Workspace.emptied (workspace : Workspace) : Workspace :=
  { workspace with
    memory := workspace.memory.newTable.2
    engine := { workspace.engine with
      closed := true, active := workspace.memory.newTable.1, queue := [], segments := [] } }

/-- What a closing does to an open engine. -/
def closeOpen : MaintenanceM Unit := do
  flushAll
  let active ← newTable
  change fun engine => { engine with closed := true, active, queue := [], segments := [] }

theorem run_close_closed (hclosed : start.engine.closed = true) :
    close.run.run start = (.ok (), start) := by
  refine (run_get_bind fun workspace =>
    if workspace.engine.closed then pure () else closeOpen).trans ?_
  rw [hclosed]
  rfl

theorem run_close (hopen : start.engine.closed = false) :
    close.run.run start = closeOpen.run.run start := by
  refine (run_get_bind fun workspace =>
    if workspace.engine.closed then pure () else closeOpen).trans ?_
  rw [hopen]
  rfl

/-- **A closing** of an open engine writes its tables out and, if it gets to the end, lets go of all
data. -/
theorem runs_close (hopen : start.engine.closed = false) (hu : start.snapshot.Unshared)
    (hsound : start.engine.Sound start.memory) :
    Runs close.run start
      (fun result after => match result with
        | .ok _ => ∃ last, Growth start (flushed start) True last ∧ after = last.emptied
        | .error _ => Growth start (flushed start) False after)
      (Interrupted (· <+: start.frozen.engine.queue) (flushed start) start.frozen) := by
  refine Runs.of_run_eq closeOpen.run start rfl (run_close hopen) ?_
  refine Runs.andThen (runs_flushAll hu hsound).withCrash ?_ ?_
  · rintro ⟨⟩ last - ⟨hprogress, hcrash⟩
    exact Runs.of_disk_eq rfl rfl ⟨last, hprogress.mono fun _ => rfl, rfl⟩ hcrash
  · rintro error after ⟨hprogress, -⟩
    exact hprogress.mono False.elim

/-! ## Compacting -/

/-- Opened segments that are none of the given ones, of generations before the one recorded as next. -/
def Spares (replaced : List Handle) (recorded : UInt64) (segments : List Segment) : Prop :=
  ∀ handle ∈ replaced, handle.segment.generation < recorded ∧
    ∀ segment ∈ segments, segment.generation ≠ handle.segment.generation

theorem Spares.subset {replaced some : List Handle} {recorded : UInt64} {segments : List Segment}
    (h : Spares replaced recorded segments) (hsub : some ⊆ replaced) : Spares some recorded segments :=
  fun handle hmem => h handle (hsub hmem)

theorem Spares.append {replaced more : List Handle} {recorded : UInt64} {segments : List Segment}
    (h : Spares replaced recorded segments) (h' : Spares more recorded segments) :
    Spares (replaced ++ more) recorded segments :=
  fun handle hmem => (List.mem_append.1 hmem).elim (h handle) (h' handle)

/-- Progress lists only segments that were listed before or are newer. -/
theorem Spares.progress {replaced : List Handle} {recorded recorded' : UInt64} {handed : Nat}
    {complete : Prop} {after : Workspace} (h : Spares replaced recorded start.engine.live)
    (hprogress : Progress start handed complete after) (hkeeps : start.Keeps recorded)
    (hroom : start.next.toNat + handed < UInt64.size) (hle : recorded ≤ recorded') :
    Spares replaced recorded' after.engine.live := by
  intro handle hmem
  refine ⟨UInt64.lt_of_lt_of_le (h handle hmem).1 hle, fun segment hsegment => ?_⟩
  rcases hprogress.fresh hroom segment hsegment with hold | hnew
  · exact (h handle hmem).2 segment hold
  · exact (UInt64.ne_of_lt (UInt64.lt_of_lt_of_le (UInt64.lt_of_lt_of_le (h handle hmem).1
      hkeeps.recorded_le) hnew)).symm

theorem Spares.released {replaced : List Handle} {recorded next : UInt64} {segments : List Segment}
    {s t : Snapshot} (h : Spares replaced recorded segments) (hkept : Kept recorded next segments s)
    (hwithin : Within ((replaced.map fun handle => handle.segment.generation).flatMap FileName.halves)
      s t) : Kept recorded next segments t := by
  refine hkept.removed hwithin ?_ ?_
  · intro generation hmem
    obtain ⟨handle, hhandle, rfl⟩ := List.mem_map.1 hmem
    exact UInt64.lt_of_lt_of_le (h handle hhandle).1 hkept.recorded_le
  · intro generation hmem
    obtain ⟨handle, hhandle, rfl⟩ := List.mem_map.1 hmem
    exact (h handle hhandle).2

theorem filesOf_handles (handles : List Handle) : filesOf (handles.map Handle.segment) =
    (handles.map fun handle => handle.segment.generation).flatMap FileName.halves := by
  rw [filesOf, List.flatMap_map, List.flatMap_map]

/-- The replaced segments that are in use are spared, the others are taken away. -/
theorem runs_retire (inUse : Handle → Bool) (replaced : List Handle) {disk : Disk}
    (hu : disk.snapshot.Unshared) :
    Runs (retire inUse replaced) disk
      (fun result after => result = replaced.filter inUse ∧
        Removed (filesOf ((replaced.filter fun handle => ¬ inUse handle).map Handle.segment))
          disk.snapshot after.snapshot)
      (Within ((replaced.map fun handle => handle.segment.generation).flatMap FileName.halves)
        disk.snapshot) := by
  have hremove : ∀ handles : List Handle,
      (handles.forM fun handle => Segment.remove handle.segment.generation) =
        Manager.removeAll (handles.map fun handle => handle.segment.generation) := by
    intro handles
    induction handles with
    | nil => rfl
    | cons handle rest ih =>
      exact congrArg (Segment.remove handle.segment.generation >>= fun _ => ·) ih
  have hsub : ((replaced.filter fun handle => ¬ inUse handle).map fun handle =>
        handle.segment.generation).flatMap FileName.halves ⊆
      (replaced.map fun handle => handle.segment.generation).flatMap FileName.halves := by
    intro name hname
    obtain ⟨generation, hgeneration, hname⟩ := List.mem_flatMap.1 hname
    obtain ⟨handle, hmem, rfl⟩ := List.mem_map.1 hgeneration
    exact List.mem_flatMap.2 ⟨_, List.mem_map_of_mem (List.mem_filter.1 hmem).1, hname⟩
  rw [retire, hremove]
  refine Runs.bind ((Manager.runs_removeAll _ hu).within (.refl _ hu) hsub) ?_
  rintro ⟨⟩ after - ⟨hremoved, -, hwithin⟩
  exact Runs.pure _ ⟨rfl, filesOf_handles _ ▸ hremoved⟩ hwithin

/-- Each of the segments is among the given ones, or its files are gone. -/
def Retired (segments replaced : List Handle) (snapshot : Snapshot) : Prop :=
  ∀ handle ∈ segments, handle ∈ replaced ∨
    ∀ half bytes, snapshot.holding (FileName.segment half handle.segment.generation) ≠ .file bytes

theorem Retired.of_removed {inUse : Handle → Bool} {segments : List Handle} {s t : Snapshot}
    (h : Removed (filesOf ((segments.filter fun handle => ¬ inUse handle).map Handle.segment)) s t) :
    Retired segments (segments.filter inUse) t := by
  intro handle hmem
  cases hused : inUse handle with
  | true => exact .inl (List.mem_filter.2 ⟨hmem, hused⟩)
  | false =>
    refine .inr fun half bytes hfile => (h.file_iff.1 hfile).2 (mem_filesOf.2 ?_)
    exact ⟨_, List.mem_map_of_mem (List.mem_filter.2 ⟨hmem, by simp [hused]⟩), half, rfl⟩

/-- What becomes of the segments that a compaction replaced: those in use are returned and keep their
files, the others have lost theirs, and none of them is listed any more. -/
structure Retires (inUse : Handle → Bool) (handed : Nat) (start : Workspace) (replaced : List Handle)
    (after : Workspace) : Prop where
  returned : replaced = start.engine.segments.filter inUse
  gone : ∀ handle ∈ start.engine.segments, inUse handle = false →
    ∀ half bytes, after.snapshot.holding (FileName.segment half handle.segment.generation) ≠ .file bytes
  spared : ∀ {recorded}, start.Keeps recorded → start.next.toNat + handed < UInt64.size →
    ∀ handle ∈ start.engine.segments, inUse handle = true →
      ∀ half, after.snapshot.holding (FileName.segment half handle.segment.generation) =
        start.snapshot.holding (FileName.segment half handle.segment.generation)
  delisted : ∀ {recorded}, start.Keeps recorded → start.next.toNat + handed < UInt64.size →
    ∃ recorded', recorded ≤ recorded' ∧ after.Keeps recorded' ∧
      Spares start.engine.segments recorded' after.engine.live

theorem Retires.subset {inUse : Handle → Bool} {handed : Nat} {replaced : List Handle}
    {after : Workspace} (h : Retires inUse handed start replaced after) :
    replaced ⊆ start.engine.segments := by
  rw [h.returned]
  exact List.filter_sublist.subset

theorem Retires.retired {inUse : Handle → Bool} {handed : Nat} {replaced : List Handle}
    {after : Workspace} (h : Retires inUse handed start replaced after) :
    Retired start.engine.segments replaced after.snapshot := by
  intro handle hmem
  cases hused : inUse handle with
  | true => exact .inl (h.returned ▸ List.mem_filter.2 ⟨hmem, hused⟩)
  | false => exact .inr (h.gone handle hmem hused)

/-- Of opened segments that are committed together no two have the same generation. -/
theorem Workspace.Keeps.handle_eq {recorded : UInt64} (h : start.Keeps recorded) {one other : Handle}
    (hone : one ∈ start.engine.segments) (hother : other ∈ start.engine.segments)
    (hsame : one.segment.generation = other.segment.generation) : one = other := by
  have hfalling : start.engine.segments.Pairwise fun newer older =>
      older.segment.generation < newer.segment.generation :=
    List.pairwise_map.1 h.committed.falling
  have hnodup : (start.engine.segments.map fun handle => handle.segment.generation).Nodup :=
    List.pairwise_map.2 (hfalling.imp fun hlt => (UInt64.ne_of_lt hlt).symm)
  exact List.inj_on_of_nodup_map hnodup hone hother hsame

/-- What a compaction does after the freeze, if there is anything to do. -/
def compactLayers (inUse : Handle → Bool) (frozen : Workspace) : MaintenanceM (List Handle) := do
  let built ← build (compacted frozen.memory frozen.engine)
  commit built.toList built
  let handles ← built.toList.mapM fun segment => adopt segment
  change fun engine => { engine with queue := [], segments := handles }
  onDisk (retire inUse frozen.engine.segments)

/-- Whether there is nothing below the active table. -/
def Workspace.isBare (workspace : Workspace) : Bool :=
  workspace.engine.queue.isEmpty && workspace.engine.segments.isEmpty

theorem run_compact_closed (inUse : Handle → Bool) (hclosed : start.engine.closed = true) :
    (compact inUse).run.run start = (.error .closed, start) :=
  run_requireOpen_bind_closed _ hclosed

theorem run_compact (inUse : Handle → Bool) (hopen : start.engine.closed = false) :
    (compact inUse).run.run start =
      (if start.frozen.isBare then pure [] else compactLayers inUse start.frozen :
        MaintenanceM (List Handle)).run.run start.frozen := by
  refine (run_requireOpen_bind _ hopen).trans ?_
  have hrun : ∀ next : MaintenanceM (List Handle),
      ((do freeze; next) : MaintenanceM (List Handle)).run.run start =
        next.run.run (freeze.run start).2 := fun _ => rfl
  refine (hrun _).trans ?_
  rw [run_freeze]
  refine (run_get_bind fun workspace => if workspace.isBare then pure [] else
    compactLayers inUse workspace).trans ?_
  rfl

theorem run_adopt (built : Option Segment) :
    (built.toList.mapM fun segment => adopt segment : MaintenanceM (List Handle)).run.run start =
      (.ok (start.memory.adoptAll start.engine.config.dataDir built.toList).1,
        { start with
          memory := (start.memory.adoptAll start.engine.config.dataDir built.toList).2 }) := by
  cases built <;> rfl

/-- The segment that was built takes the place of all layers. -/
theorem run_replace (inUse : Handle → Bool) (built : Option Segment) (replaced : List Handle) :
    (do
      let handles ← built.toList.mapM fun segment => adopt segment
      change fun engine => { engine with queue := [], segments := handles }
      onDisk (retire inUse replaced) : MaintenanceM (List Handle)).run.run start =
    (onDisk (retire inUse replaced)).run.run { start with
      engine := { start.engine with
        queue := []
        segments := (start.memory.adoptAll start.engine.config.dataDir built.toList).1 }
      memory := (start.memory.adoptAll start.engine.config.dataDir built.toList).2 } := by
  rw [ExceptT.run_bind, StateT.run_bind, run_adopt]
  rfl

/-- **Writing all layers as one**: what they come to becomes a segment of the next generation, or none if no
live entry is left. It is committed alone and taken over in place of all others, and of these the files
that are not in use are taken away. -/
theorem runs_compactLayers_exact (inUse : Handle → Bool) {built : Option Segment}
    (hmade : built = segmentOf? start.next (compacted start.memory start.engine))
    (hu : start.snapshot.Unshared) :
    Runs (compactLayers inUse start).run start
      (fun result after => match result with
        | .ok replaced => after = { start.taking built [] [] with disk := after.disk } ∧
            replaced = start.engine.segments.filter inUse ∧
            built.elim [] Segment.entries = compacted start.memory start.engine ∧
            ∃ s, Commits start.next built (Manifest.current (start.next + 1)
                (built.toList.reverse.map Segment.info)) start.snapshot s ∧
              Removed (filesOf ((start.engine.segments.filter fun handle => ¬ inUse handle).map
                Handle.segment)) s after.snapshot
        | .error _ => Fails (compacted start.memory start.engine) built.toList start after)
      (fun t => Within (FileName.temporary FileName.manifest :: FileName.ofGeneration start.next)
          start.snapshot t ∨
        built.elim [] Segment.entries = compacted start.memory start.engine ∧
          ∃ s, Commits start.next built (Manifest.current (start.next + 1)
              (built.toList.reverse.map Segment.info)) start.snapshot s ∧
            Within ((start.engine.segments.map fun handle => handle.segment.generation).flatMap
              FileName.halves) s t) := by
  refine Runs.andThen ((runs_build (compacted start.memory start.engine) hu).withCrash.monoCrash
    fun t ht => .inl (ht.mono (List.subset_cons_self _ _))) ?_ ?_
  · rintro other middle - ⟨⟨hmiddle, hbuilt⟩, hcrash⟩
    obtain rfl : built = other := hmade.trans hbuilt.made.symm
    have hnext : middle.next = start.next + 1 := by
      rw [hmiddle]
      rfl
    have hcommit := runs_commit built.toList hbuilt
    rw [hnext] at hcommit
    refine Runs.andThen (hcommit.withCrash.monoCrash ?_) ?_ ?_
    · rintro t (ht | hcommits)
      · exact .inl ht
      · exact .inr ⟨hbuilt.holds, t, hcommits, .refl _ hcommits.within.unshared⟩
    · rintro ⟨⟩ last - ⟨⟨hlast, hcommits⟩, -⟩
      rw [hmiddle] at hlast
      refine Runs.of_run_eq (onDisk (retire inUse start.engine.segments)).run
        { start.taking built [] [] with disk := last.disk } rfl ?_ ?_
      · rw [run_replace, hlast]
        simp only [Workspace.taking, List.append_nil]
        rfl
      refine Runs.onDisk (Runs.of_run_eq (Except.ok <$> retire inUse start.engine.segments) last.disk
        rfl rfl (Runs.map ?_))
      refine (runs_retire inUse _ hcommits.within.unshared).mono ?_ ?_
      · rintro result disk ⟨hresult, hremoved⟩ -
        exact ⟨rfl, hresult, hbuilt.holds, _, hcommits, hremoved⟩
      · exact fun t ht => .inr ⟨hbuilt.holds, _, hcommits, ht⟩
    · rintro error last ⟨⟨hlast, hrestored, hhindered⟩, -⟩
      rw [hmiddle] at hlast
      exact ⟨hlast, hrestored, .inr hhindered⟩
  · rintro error middle ⟨⟨hmiddle, hrestored, hhindered⟩, -⟩
    exact ⟨hmiddle, hrestored.mono (List.subset_cons_self _ _), .inl hhindered⟩

/-! ### The segments that a compaction replaces

They are older than what the compaction commits, so they are not listed any more, and taking their files
away loses nothing. -/

section Replaced

variable {kept : Workspace}
  (hdrained : Drained start.engine.queue [] 1 start kept)
  (hkept : ∀ {recorded}, start.Keeps recorded → start.next.toNat + 1 < UInt64.size →
    Kept (start.next + 1) kept.next kept.engine.live kept.snapshot)
  (hbuilt : ∀ segment ∈ kept.engine.live, segment.generation = start.next)

include hbuilt in
theorem spares_replaced {recorded : UInt64} (hkeeps : start.Keeps recorded)
    (hroom : start.next.toNat + 1 < UInt64.size) :
    Spares start.engine.segments (start.next + 1) kept.engine.live := by
  intro handle hhandle
  have hold : handle.segment ∈ start.engine.live := List.mem_map_of_mem hhandle
  refine ⟨UInt64.lt_of_lt_of_le (hkeeps.generation_lt hold) (Kept.le_succ hroom),
    fun segment hlive => ?_⟩
  rw [hbuilt segment hlive]
  exact (hkeeps.generation_ne hold).symm

include hkept hbuilt in
theorem kept_replaced {t : Snapshot} (ht : Within ((start.engine.segments.map fun handle =>
      handle.segment.generation).flatMap FileName.halves) kept.snapshot t) {recorded : UInt64}
    (hkeeps : start.Keeps recorded) (hroom : start.next.toNat + 1 < UInt64.size) :
    Kept (start.next + 1) kept.next kept.engine.live t :=
  (spares_replaced hbuilt hkeeps hroom).released (hkept hkeeps hroom) ht

include hdrained hkept hbuilt in
/-- A crash while files are taken away finds everything written out. -/
theorem Interrupted.replaced {t : Snapshot} (ht : Within ((start.engine.segments.map fun handle =>
      handle.segment.generation).flatMap FileName.halves) kept.snapshot t) :
    Interrupted (fun written => written = [] ∨ written = start.engine.queue) 1 start t :=
  ⟨ht.unshared, fun hkeeps hroom =>
    ⟨start.engine.queue, .inr rfl, hdrained.shows hroom (kept_replaced hkept hbuilt ht hkeeps hroom)⟩⟩

include hdrained hkept hbuilt in
/-- **Retiring the segments that a compaction replaced.** -/
theorem Drained.replaced (inUse : Handle → Bool) {disk : Disk}
    (hsame : ∀ generation ≠ start.next, ∀ half,
      kept.snapshot.holding (FileName.segment half generation) =
        start.snapshot.holding (FileName.segment half generation))
    (hremoved : Removed (filesOf ((start.engine.segments.filter fun handle => ¬ inUse handle).map
      Handle.segment)) kept.snapshot disk.snapshot) :
    Drained start.engine.queue [] 1 start { kept with disk } ∧
      Retires inUse 1 start (start.engine.segments.filter inUse) { kept with disk } := by
  have ht : Within ((start.engine.segments.map fun handle => handle.segment.generation).flatMap
      FileName.halves) kept.snapshot disk.snapshot := by
    rw [← filesOf_handles]
    exact hremoved.within.mono (filesOf_subset (List.map_subset _ List.filter_sublist.subset))
  have hretired : ∀ {recorded}, start.Keeps recorded → start.next.toNat + 1 < UInt64.size →
      Kept (start.next + 1) kept.next kept.engine.live disk.snapshot := kept_replaced hkept hbuilt ht
  refine ⟨hdrained.withDisk ht.unshared hremoved.gains (fun hkeeps hroom =>
      ⟨_, UInt64.le_trans hkeeps.recorded_le (Kept.le_succ hroom), hretired hkeeps hroom⟩) ?_,
    rfl, fun handle hmem hunused half bytes hfile => ?_, fun hkeeps hroom handle hmem hused half => ?_,
    fun hkeeps hroom => ⟨_, UInt64.le_trans hkeeps.recorded_le (Kept.le_succ hroom),
      hretired hkeeps hroom, spares_replaced hbuilt hkeeps hroom⟩⟩
  · -- A generation that was listed and still is would be the one just built.
    intro generation hold hlisted half
    refine ht.same _ fun hname => ?_
    obtain ⟨replaced, hreplaced, hname⟩ := List.mem_flatMap.1 hname
    obtain ⟨handle, hmem, rfl⟩ := List.mem_map.1 hreplaced
    obtain ⟨half', hname⟩ := FileName.mem_halves.1 hname
    obtain ⟨-, rfl⟩ := FileName.segment_injective hname
    obtain ⟨segment, hlive, hgeneration⟩ := hlisted ⟨_, List.mem_map_of_mem hmem, rfl⟩
    exact UInt64.ne_of_lt hold (hgeneration.symm.trans (hbuilt segment hlive))
  · refine (hremoved.file_iff.1 hfile).2 (mem_filesOf.2 ?_)
    exact ⟨_, List.mem_map_of_mem (List.mem_filter.2 ⟨hmem, by simp [hunused]⟩), half, rfl⟩
  · refine (hremoved.within.same _ fun hname => ?_).trans
      (hsame _ (hkeeps.generation_ne (List.mem_map_of_mem hmem)) half)
    obtain ⟨segment, hremoved, half', hname⟩ := mem_filesOf.1 hname
    obtain ⟨other, hunused, rfl⟩ := List.mem_map.1 hremoved
    obtain ⟨hother, hunused⟩ := List.mem_filter.1 hunused
    rw [hkeeps.handle_eq hmem hother (FileName.segment_injective hname).2] at hused
    simp [hused] at hunused

end Replaced

/-- A merge of all layers that is committed leaves nothing to be written out. -/
theorem Drained.of_merged {built : Option Segment} {disk : Disk}
    (hasc : ∀ segment ∈ start.engine.live, Ascending segment.entries)
    (hholds : built.elim [] Segment.entries = compacted start.memory start.engine)
    (hcommits : Commits start.next built (Manifest.current (start.next + 1)
      (built.toList.reverse.map Segment.info)) start.snapshot disk.snapshot) :
    Drained start.engine.queue [] 1 start { start.taking built [] [] with disk } := by
  let handles := (start.memory.adoptAll start.engine.config.dataDir built.toList).1
  have hsegments : handles.map Handle.segment = built.toList := Memory.segment_adoptAll _ _ _
  have hcontent : Content.ofSegments (handles.map Handle.segment) =
      Content.overlay start.memory start.engine.queue.reverse
        (Content.ofSegments start.engine.live) := by
    rw [hsegments]
    refine Content.ofSegments_merged (fun handle hmem => hasc _ (List.mem_map_of_mem hmem)) ?_ ?_
    · rintro rfl
      exact hholds.symm
    · rintro segment rfl
      exact hholds
  rw [← hsegments] at hcommits
  refine .of_commits ?_ rfl hasc hcommits (List.sublist_append_left _ _)
    (by rw [hsegments]; exact List.Subset.refl _) hcontent
  simp only [Workspace.taking, List.append_nil]
  rfl

/-- **Writing all layers as one** replaces them in one step, or leaves them as they are. -/
theorem runs_compactLayers (inUse : Handle → Bool) (hu : start.snapshot.Unshared)
    (hasc : ∀ segment ∈ start.engine.live, Ascending segment.entries) :
    Runs (compactLayers inUse start).run start
      (fun result after => match result with
        | .ok replaced => Drained start.engine.queue [] 1 start after ∧
            Retires inUse 1 start replaced after
        | .error _ => Drained [] start.engine.queue 1 start after ∧
            after.engine.segments = start.engine.segments)
      (Interrupted (fun written => written = [] ∨ written = start.engine.queue) 1 start) := by
  let built := segmentOf? start.next (compacted start.memory start.engine)
  have hlive : (start.taking built [] []).engine.live = built.toList := by
    rw [live_taking, List.map_nil, List.append_nil]
  -- The directory between the commit and the taking away of files.
  have hkept : ∀ {s : Snapshot}, Commits start.next built (Manifest.current (start.next + 1)
      (built.toList.reverse.map Segment.info)) start.snapshot s → ∀ {recorded}, start.Keeps recorded →
      start.next.toNat + 1 < UInt64.size → Kept (start.next + 1) (start.next + 1) built.toList s :=
    fun hcommits _ hkeeps hroom => hkeeps.of_commits hroom hcommits (List.sublist_append_left _ _)
  refine (runs_compactLayers_exact inUse rfl hu).mono ?_ ?_
  · rintro (error | replaced) after hpost -
    · refine ⟨.of_restored hpost.state hasc hpost.restored (List.Subset.refl _), ?_⟩
      rw [hpost.state]
      rfl
    · obtain ⟨hafter, rfl, hholds, s, hcommits, hremoved⟩ := hpost
      rw [hafter]
      have hdrained : Drained start.engine.queue [] 1 start
          { start.taking built [] [] with disk := .ofSnapshot s } := .of_merged hasc hholds hcommits
      refine hdrained.replaced ?_ ?_ inUse ?_ hremoved
      · intro recorded hkeeps hroom
        rw [hlive]
        exact hkept hcommits hkeeps hroom
      · intro segment hmem
        rw [hlive] at hmem
        exact (hcommits.stored segment (Option.mem_toList.1 hmem)).1
      · refine fun generation hne half => hcommits.within.same _ ?_
        simp [FileName.segment_ne_manifest, (FileName.temporary_manifest_ne_segment _ _).symm,
          FileName.segment_mem_ofGeneration, hne]
  · rintro t (ht | ⟨hholds, s, hcommits, ht⟩)
    · exact .spared (.inl rfl) ht
    · have hdrained : Drained start.engine.queue [] 1 start
          { start.taking built [] [] with disk := .ofSnapshot s } := .of_merged hasc hholds hcommits
      refine .replaced hdrained ?_ ?_ ht
      · intro recorded hkeeps hroom
        rw [hlive]
        exact hkept hcommits hkeeps hroom
      · intro segment hmem
        rw [hlive] at hmem
        exact (hcommits.stored segment (Option.mem_toList.1 hmem)).1

/-- How many generations a compaction hands out. -/
def merges (workspace : Workspace) : Nat := if workspace.frozen.isBare then 0 else 1

/-- Freezing does not touch the segments that are replaced after it. -/
theorem Retires.of_frozen {inUse : Handle → Bool} {handed : Nat} {replaced : List Handle}
    {after : Workspace} (h : Retires inUse handed start.frozen replaced after) :
    Retires inUse handed start replaced after := by
  obtain ⟨hreturned, hgone, hspared, hdelisted⟩ := h
  rw [frozen_segments] at hreturned hgone hspared hdelisted
  rw [Workspace.next, frozen_manager] at hspared hdelisted
  rw [Workspace.snapshot, Workspace.snapshot, frozen_disk] at hspared
  exact ⟨hreturned, hgone, fun hkeeps => hspared (keeps_frozen hkeeps),
    fun hkeeps => hdelisted (keeps_frozen hkeeps)⟩

/-- **A compaction** of an open engine writes all its layers out as one, or leaves them as they are; the
segments that it replaces are not listed any more. -/
theorem runs_compact (inUse : Handle → Bool) (hopen : start.engine.closed = false)
    (hu : start.snapshot.Unshared) (hsound : start.engine.Sound start.memory) :
    Runs (compact inUse).run start
      (fun result after => match result with
        | .ok replaced => Progress start (merges start) True after ∧
            Retires inUse (merges start) start replaced after
        | .error _ => Growth start (merges start) False after)
      (Interrupted (fun written => written = [] ∨ written = start.frozen.engine.queue) (merges start)
        start.frozen) := by
  have hu' : start.frozen.snapshot.Unshared := by
    rw [Workspace.snapshot, frozen_disk]
    exact hu
  have hasc := (sound_frozen hsound).ascending
  refine Runs.of_run_eq _ start.frozen frozen_disk (run_compact inUse hopen) ?_
  by_cases hbare : start.frozen.isBare = true
  · have hqueue : start.frozen.engine.queue = [] :=
      List.isEmpty_iff.1 (Bool.and_eq_true_iff.1 hbare).1
    have hdrained := Drained.refl hu' hasc
    rw [hqueue] at hdrained
    have hsegments : start.engine.segments = [] := by
      rw [← frozen_segments]
      exact List.isEmpty_iff.1 (Bool.and_eq_true_iff.1 hbare).2
    have hnone : ∀ handle, handle ∉ start.engine.segments := by
      rw [hsegments]
      exact fun handle => List.not_mem_nil
    rw [merges, if_pos hbare, if_pos hbare]
    refine Runs.pure _ ⟨.of_drained hqueue.symm hdrained (fun _ => rfl) (Nat.zero_le _) ?_,
      (by rw [hsegments]; rfl), fun handle hmem => absurd hmem (hnone handle),
      fun _ _ handle hmem => absurd hmem (hnone handle),
      fun hkeeps _ => ⟨_, UInt64.le_refl _, keeps_frozen hkeeps, ?_⟩⟩ (.refl (.inl rfl) _ hu')
    · exact fun hne => absurd hqueue hne
    · exact fun handle hmem => absurd hmem (hnone handle)
  · rw [merges, if_neg hbare, if_neg hbare]
    refine (runs_compactLayers inUse hu' hasc).mono ?_ fun _ ht => ht
    have hle : 1 ≤ start.engine.queue.length + 1 := Nat.le_add_left _ _
    rintro (error | replaced) after hpost -
    · obtain ⟨hdrained, hsegments⟩ := hpost
      rw [frozen_segments] at hsegments
      exact ⟨.of_drained (List.nil_append _) hdrained False.elim hle fun _ => Nat.one_pos,
        hsegments ▸ List.suffix_refl _⟩
    · obtain ⟨hdrained, hretires⟩ := hpost
      exact ⟨.of_drained (List.append_nil _) hdrained (fun _ => rfl) hle fun _ => Nat.one_pos,
        hretires.of_frozen⟩

end Maintenance

end LsmTree
