import LsmTree.Proofs.Bookkeeping
import LsmTree.Proofs.Effects

/-!
# Maintenance that fails

A directory may stand in the way of any file that maintenance writes: of the two halves of a segment, of
their temporaries, or of the new manifest. Whatever stopped it, a compaction that fails has changed nothing
on disk, and a flush or a closing that fails has done just what one of the oldest tables alone would have
done. The engine stays open and answers as before.

* **`World.Filled`** — no table that waits is empty, in every world that events lead to;
* **`World.Using.clear`** — no file is where maintenance puts new ones;
* **`World.failure_leaves_intact`** — what a step of maintenance that fails leaves.
-/

namespace LsmTree

open Snapshot (Removed)
open Maintenance (Workspace Progress Growth Flushed Fails)

/-! ## Tables that wait -/

theorem Memtable.isEmpty_insert (table : Memtable) (entry : Entry) :
    (table.insert entry).isEmpty = false := by
  show (insertEntry entry table.entries).isEmpty = false
  cases table.entries with
  | nil => rfl
  | cons head rest =>
    rw [insertEntry]
    split
    · rfl
    · split <;> rfl

theorem Engine.Filled.insert {memory : Memory} {engine : Engine} (h : engine.Filled memory) (active : Nat)
    (entry : Entry) : engine.Filled (memory.insert active entry) := by
  intro id hmem
  rw [Memory.table_insert]
  split
  · exact Memtable.isEmpty_insert _ _
  · exact h id hmem

/-- Maintenance freezes a table only if it is not empty. -/
theorem Maintenance.Progress.filled {start after : Workspace} {handed : Nat} {complete : Prop}
    (h : Progress start handed complete after) (hfilled : start.engine.Filled start.memory) :
    after.engine.Filled after.memory := by
  obtain ⟨written, rest, hqueue, hdrained, -⟩ := h.drained
  intro id hmem
  -- What still waits is a last part of what was written out, and no table has changed since the freeze.
  rw [hdrained.queue] at hmem
  rw [Maintenance.frozen_queue_eq] at hqueue
  rw [Maintenance.Memory.table_congr hdrained.tables, Maintenance.table_frozen]
  exact hfilled.waiting id (hqueue ▸ List.mem_append_right _ hmem)

namespace World

variable {world : World} {ledger : Ledger} {engine : Engine}

/-- No table that waits in the engine is empty. -/
def Filled (world : World) : Prop :=
  ∀ engine, world.engine = some engine → engine.Filled world.memory

/-- **Maintenance** leaves an engine that has made progress, or one that has let go of all data after
that. -/
theorem Using.maintained (h : Using world ledger engine) {event : Event}
    (hpersists : event.persists = true) : ∃ handed complete last, ∃ left : Workspace,
      Progress (world.workspace engine) handed complete last ∧ (left = last ∨ left = last.emptied) ∧
      (world.act event).2.engine = some left.engine ∧ (world.act event).2.memory = left.memory := by
  cases event with
  | flush =>
    have hruns : Runs _ (world.workspace engine) _ _ :=
      Maintenance.runs_flush h.opened h.unshared h.sound
    obtain ⟨⟨hprogress, -⟩, -⟩ := hruns.apply (Disk.plain_ofSnapshot world.dir)
    rw [act, maintain_eq _ h.present]
    exact ⟨_, _, _, _, hprogress, .inl rfl, rfl, rfl⟩
  | compact =>
    have hruns : Runs _ (world.workspace engine) _ _ :=
      Maintenance.runs_compact world.isHeld h.opened h.unshared h.sound
    obtain ⟨hpost, -⟩ := hruns.apply (Disk.plain_ofSnapshot world.dir)
    rw [act, maintain_eq _ h.present]
    cases hresult : ((Maintenance.compact world.isHeld).run.run (world.workspace engine)).1 with
    | ok replaced =>
      rw [hresult] at hpost
      exact ⟨_, _, _, _, hpost.1, .inl rfl, rfl, rfl⟩
    | error error =>
      rw [hresult] at hpost
      exact ⟨_, _, _, _, Growth.toProgress hpost, .inl rfl, rfl, rfl⟩
  | close =>
    have hruns : Runs _ (world.workspace engine) _ _ :=
      Maintenance.runs_close h.opened h.unshared h.sound
    obtain ⟨hpost, -⟩ := hruns.apply (Disk.plain_ofSnapshot world.dir)
    rw [act, maintain_eq _ h.present]
    cases hresult : (Maintenance.close.run.run (world.workspace engine)).1 with
    | ok value =>
      rw [hresult] at hpost
      obtain ⟨last, hgrowth, hlast⟩ := hpost
      exact ⟨_, _, last, _, hgrowth.toProgress, .inr hlast, rfl, rfl⟩
    | error error =>
      rw [hresult] at hpost
      exact ⟨_, _, _, _, Growth.toProgress hpost, .inl rfl, rfl, rfl⟩
  | _ => cases hpersists

/-- The table that takes the writes is empty after maintenance, whether that succeeds or not. -/
theorem Using.isEmpty_active (h : Using world ledger engine) {event : Event}
    (hpersists : event.persists = true) {left : Engine} (hleft : (world.act event).2.engine = some left) :
    ((world.act event).2.memory.table left.active).isEmpty = true := by
  obtain ⟨handed, complete, last, workspace, hprogress, hcase, hengine, hmemory⟩ := h.maintained hpersists
  obtain rfl : workspace.engine = left := Option.some.inj (hengine.symm.trans hleft)
  rw [hmemory]
  -- The freeze has put an empty table in its place, and a closing that succeeds a new one.
  rcases hcase with rfl | rfl
  · obtain ⟨written, rest, -, hdrained, -⟩ := hprogress.drained
    rw [Maintenance.Memory.table_congr hdrained.tables, hdrained.active]
    exact Maintenance.isEmpty_frozen
  · exact Memory.isEmpty_newTable _

theorem Filled.maintenance (h : Filled world) (hconsistent : Consistent world ledger) {event : Event}
    (hpersists : event.persists = true) : Filled (world.act event).2 := by
  rcases hconsistent with ⟨engine, husing⟩ | hidle
  · obtain ⟨handed, complete, last, left, hprogress, hleft, hengine, hmemory⟩ :=
      husing.maintained hpersists
    intro engine' hengine'
    obtain rfl : left.engine = engine' := Option.some.inj (hengine.symm.trans hengine')
    rw [hmemory]
    rcases hleft with rfl | rfl
    · exact hprogress.filled (h engine husing.present)
    · exact fun id hmem => absurd hmem List.not_mem_nil
  · rw [(hidle.act_eq hpersists).1]
    exact h

theorem filled_load (hnone : world.engine = none) (config : Config) : Filled (world.load config).2 := by
  rw [load]
  split
  · intro engine hengine
    rw [show world.engine = some engine from hengine] at hnone
    cases hnone
  · intro engine hengine id hmem
    cases hengine
    cases hmem

theorem Filled.change {changed : Except OsError Directory} (h : Filled world) :
    Filled (world.change changed).2 := by
  cases changed with
  | error cause => exact h
  | ok names => exact h

/-- **Each event** leaves no empty table to wait. -/
theorem Filled.step (h : Filled world) (hconsistent : Consistent world ledger) (event : Event) :
    Filled (world.step event).2 := by
  have hreading : event.isReading = true → Filled (world.act event).2 := fun hread => by
    obtain ⟨cursors, heq⟩ := act_reading world hread
    rw [heq]
    exact h
  show Filled (world.act event).2
  cases event with
  | load config => exact filled_load rfl config
  | upsert entry =>
    rcases world.act_upsert entry with ⟨fault, hact⟩ | ⟨engine, hengine, -, hact⟩
    · rw [hact]
      exact h
    · rw [hact]
      exact fun engine' hengine' => (h engine' hengine').insert _ _
  | flush => exact h.maintenance hconsistent rfl
  | compact => exact h.maintenance hconsistent rfl
  | close => exact h.maintenance hconsistent rfl
  | drop => rintro engine ⟨⟩
  | crash => rintro engine ⟨⟩
  | block name => exact h.change
  | unblock name => exact h.change
  | _ => exact hreading rfl

theorem Reached.filled (h : Reached world ledger) (hroom : ledger.handedOut < UInt64.size - 1) :
    Filled world := by
  induction h with
  | start => rintro engine ⟨⟩
  | @step world ledger h event ih =>
    have hbefore := Nat.lt_of_le_of_lt (handedOut_le_note event) hroom
    exact (ih hbefore).step (h.consistent hbefore) event

/-! ## Where new files go -/

/-- **No file is in the way** of maintenance if every file is accounted for. -/
theorem Using.clear (h : Using world ledger engine)
    (haccounted : Accounted engine.live world.replaced world.dir) : (world.workspace engine).Clear := by
  obtain ⟨recorded, hkept, hspares⟩ := h.kept
  refine ⟨fun bytes hfile => ?_, fun generation hle name hname bytes hfile => ?_⟩
  · -- A file that is accounted for is the manifest or half of a segment, and neither name is temporary.
    rcases haccounted _ bytes hfile with hmanifest | hlive | hreplaced
    · exact FileName.temporary_manifest_ne_manifest hmanifest
    · obtain ⟨segment, -, half, hname⟩ := mem_filesOf.1 hlive
      exact FileName.temporary_manifest_ne_segment _ _ hname
    · obtain ⟨segment, -, half, hname⟩ := mem_filesOf.1 hreplaced
      exact FileName.temporary_manifest_ne_segment _ _ hname
  · -- What is there belongs to a generation that was handed out.
    have hnew : ∀ {segment : Segment} {half : Half}, name = FileName.segment half segment.generation →
        ¬ segment.generation < engine.manager.next := by
      rintro segment half rfl hlt
      rw [FileName.segment_mem_ofGeneration] at hname
      exact UInt64.not_lt.2 hle (hname ▸ hlt)
    rcases haccounted name bytes hfile with rfl | hlive | hreplaced
    · exact FileName.manifest_not_mem_ofGeneration _ hname
    · obtain ⟨segment, hmem, half, hsegment⟩ := mem_filesOf.1 hlive
      exact hnew hsegment (hkept.generation_lt hmem)
    · obtain ⟨segment, hmem, half, hsegment⟩ := mem_filesOf.1 hreplaced
      obtain ⟨handle, hhandle, rfl⟩ := List.mem_map.1 hmem
      exact hnew hsegment (UInt64.lt_of_lt_of_le (hspares handle hhandle).1 hkept.recorded_le)

/-- An open engine in a world that events lead to finds everything ready for maintenance. -/
theorem Reached.using (h : Reached world ledger) (hengine : world.engine = some engine)
    (hopen : engine.closed = false) (hroom : ledger.handedOut < UInt64.size - 1) :
    Using world ledger engine ∧ (world.workspace engine).Clear ∧ engine.Filled world.memory := by
  rcases h.consistent hroom with ⟨engine', husing⟩ | hidle
  · obtain rfl : engine = engine' := Option.some.inj (hengine.symm.trans husing.present)
    exact ⟨husing, husing.clear (h.accounts hroom engine hengine hopen), h.filled hroom engine hengine⟩
  · rw [(hidle.closed engine hengine).1] at hopen
    cases hopen

/-- Nothing is taken away of replaced segments that are all held. -/
theorem holding_releaseFiles (hu : world.dir.Unshared)
    (hheld : ∀ handle ∈ world.replaced, world.isHeld handle = true) (name : String) :
    world.releaseFiles.dir.holding name = world.dir.holding name := by
  have hnone : world.replaced.filter (fun handle => ¬ world.isHeld handle) = [] :=
    List.filter_eq_nil_iff.2 fun handle hmem => by simp [hheld handle hmem]
  have hremoved := releaseFiles_unheld hu
  rw [hnone] at hremoved
  exact (hremoved.holding name).trans (if_neg List.not_mem_nil)

/-! ## Steps of maintenance in a world -/

/-- **A flush** in a world whose engine is in use. -/
theorem Using.act_flush (h : Using world ledger engine) (hclear : (world.workspace engine).Clear)
    (hfilled : engine.Filled world.memory)
    (hroom : (ledger.note world .flush).handedOut < UInt64.size - 1) :
    ∃ result last, world.act .flush = ((result.mapError .store).map fun _ => .done, world.after last) ∧
      Maintenance.Flushes (world.workspace engine) result last := by
  rw [note_handedOut] at hroom
  rw [h.handsOut_flush (Nat.lt_of_le_of_lt (Nat.le_add_right _ _) hroom)] at hroom
  have hruns : Runs _ (world.workspace engine) _ _ :=
    Maintenance.runs_flush_exact h.opened h.unshared hclear hfilled (h.room hroom)
  obtain ⟨hpost, -⟩ := hruns.apply (Disk.plain_ofSnapshot world.dir)
  rw [act, maintain_eq _ h.present]
  exact ⟨_, _, rfl, hpost⟩

/-- **A closing**, after which the engine has let go of all data if it succeeds. -/
theorem Using.act_close (h : Using world ledger engine) (hclear : (world.workspace engine).Clear)
    (hfilled : engine.Filled world.memory)
    (hroom : (ledger.note world .close).handedOut < UInt64.size - 1) :
    ∃ result last, world.act .close = ((result.mapError .store).map fun _ => .done,
        world.after (if result.isOk then last.emptied else last)) ∧
      Maintenance.Flushes (world.workspace engine) result last := by
  rw [note_handedOut] at hroom
  rw [h.handsOut_close (Nat.lt_of_le_of_lt (Nat.le_add_right _ _) hroom)] at hroom
  have hruns : Runs _ (world.workspace engine) _ _ :=
    Maintenance.runs_close_exact h.opened h.unshared hclear hfilled (h.room hroom)
  obtain ⟨hpost, -⟩ := hruns.apply (Disk.plain_ofSnapshot world.dir)
  rw [act, maintain_eq _ h.present]
  cases hresult : (Maintenance.close.run.run (world.workspace engine)).1 with
  | ok value =>
    rw [hresult] at hpost
    obtain ⟨last, hflushes, hlast⟩ := hpost
    refine ⟨.ok (), last, ?_, hflushes⟩
    dsimp only
    rw [hlast]
    rfl
  | error error =>
    rw [hresult] at hpost
    exact ⟨.error error, _, rfl, hpost⟩

/-- **A compaction** in any world with an open engine. -/
theorem act_compact (hengine : world.engine = some engine) (hopen : engine.closed = false)
    (hu : world.dir.Unshared) : ∃ (result : Except Error (List Handle)) (last : Workspace),
      world.act .compact = ((result.mapError .store).map fun _ => .done,
        { world.after last with replaced := world.replaced ++ result.toOption.getD [] }) ∧
      Maintenance.Compacts world.isHeld (world.workspace engine) result last := by
  have hruns : Runs _ (world.workspace engine) _ _ :=
    Maintenance.runs_compact_exact world.isHeld hopen hu
  obtain ⟨hpost, -⟩ := hruns.apply (Disk.plain_ofSnapshot world.dir)
  rw [act, maintain_eq _ hengine]
  dsimp only
  refine ⟨_, _, ?_, hpost⟩
  cases ((Maintenance.compact world.isHeld).run.run (world.workspace engine)).1 with
  | ok replaced => rfl
  | error error => rfl

/-! ## Failures -/

/-- A compaction that fails has written no table out. -/
theorem Using.compact_fails (h : Using world ledger engine) (hclear : (world.workspace engine).Clear)
    {fault : StepFault} (hfails : (world.act .compact).1 = .error fault) :
    ∃ last, (world.act .compact).2 = world.after last ∧ last.engine.segments = engine.segments ∧
      Flushed [] (engine.waiting world.memory) (world.workspace engine) last := by
  obtain ⟨error | replaced, last, hact, hpost⟩ := act_compact h.present h.opened h.unshared
  swap
  · rw [hact] at hfails
    cases hfails
  have hstate := hpost.state
  refine ⟨last, ?_, ?_, .of_frozen ⟨?_, ?_, fun id => ?_, fun _ =>
    hpost.same (Maintenance.clear_frozen hclear), fun hne => absurd rfl hne⟩⟩
  · rw [hact]
    exact congrArg (fun replaced => { world.after last with replaced }) (List.append_nil _)
  · rw [hstate]
    exact Maintenance.frozen_segments
  · rw [hstate]
    exact Maintenance.frozen_queue_eq
  · rw [hstate]
    rfl
  · rw [hstate]
    rfl

/-- A flush or a closing that fails has written out the oldest tables up to one. -/
theorem Using.flush_fails (h : Using world ledger engine) (hclear : (world.workspace engine).Clear)
    (hfilled : engine.Filled world.memory) {event : Event} (hevent : event = .flush ∨ event = .close)
    (hroom : (ledger.note world event).handedOut < UInt64.size - 1) {fault : StepFault}
    (hfails : (world.act event).1 = .error fault) :
    ∃ last error, (world.act event).2 = world.after last ∧
      Maintenance.Flushes (world.workspace engine) (.error error) last := by
  rcases hevent with rfl | rfl
  · obtain ⟨error | ⟨⟩, last, hact, hflushes⟩ := h.act_flush hclear hfilled hroom
    · rw [hact]
      exact ⟨last, error, rfl, hflushes⟩
    · rw [hact] at hfails
      cases hfails
  · obtain ⟨error | ⟨⟩, last, hact, hflushes⟩ := h.act_close hclear hfilled hroom
    · rw [hact]
      exact ⟨last, error, rfl, hflushes⟩
    · rw [hact] at hfails
      cases hfails

/-- Two worlds that serve the same content answer each lookup and each range alike. -/
theorem Serving.agree {base : Content} {writes : List Entry} {other : World}
    (h : Serving base writes world) (h' : Serving base writes other) :
    (∀ key, (other.step (.lookup key)).1 = (world.step (.lookup key)).1) ∧
      ∀ bounds, (other.step (.range bounds)).1 = (world.step (.range bounds)).1 := by
  refine ⟨fun key => (h'.lookup key).trans (h.lookup key).symm, fun bounds => ?_⟩
  obtain ⟨entries, hanswer, hlists⟩ := h.range bounds
  obtain ⟨entries', hanswer', hlists'⟩ := h'.range bounds
  rw [hanswer, hanswer', hlists'.unique hlists]

/-- **Maintenance that fails leaves disk and engine intact.** From a directory that was empty at the start
and has only been used by engines of this kind, with directories put in the way of its files or not: a
compaction that fails leaves every file and the list of segments as they were. A flush or a closing that
fails leaves just what writing out some of the oldest tables makes of the directory, and the others wait.
The engine is still open, and it answers each lookup and each range as before. -/
theorem failure_leaves_intact (h : Reached world ledger) (hengine : world.engine = some engine)
    (hopen : engine.closed = false) {event : Event} (hpersists : event.persists = true)
    (hroom : (ledger.note world event).handedOut < UInt64.size - 1) {fault : StepFault} {after : World}
    (hfails : world.step event = (.error fault, after)) :
    ∃ left, after.engine = some left ∧ left.closed = false ∧
      (∀ key, (after.step (.lookup key)).1 = (world.step (.lookup key)).1) ∧
      (∀ bounds, (after.step (.range bounds)).1 = (world.step (.range bounds)).1) ∧
      (event = .compact → left.segments = engine.segments ∧
        ∀ name, after.dir.holding name = world.dir.holding name) ∧
      (after.memory.table left.active).isEmpty = true ∧
      (event ≠ .compact → ∃ count < (engine.waiting world.memory).length,
        Flushed ((engine.waiting world.memory).take count) ((engine.waiting world.memory).drop count)
          (world.workspace engine) (after.workspace left)) := by
  have hbefore := Nat.lt_of_le_of_lt (handedOut_le_note event) hroom
  obtain ⟨husing, hclear, hfilled⟩ := h.using hengine hopen hbefore
  obtain ⟨hanswer, hafter⟩ := Prod.mk.inj ((step_eq event).symm.trans hfails)
  -- What it leaves still serves the same writes, since no closing has succeeded.
  have huse : event.isUse = true ∧ event.written = [] := by
    cases event <;> first | exact ⟨rfl, rfl⟩ | cases hpersists
  obtain ⟨answer, -, hok, -⟩ | ⟨-, hserving⟩ := step_serving husing.serving huse.1
  · rw [hfails] at hok
    cases hok
  rw [huse.2, List.append_nil, hfails] at hserving
  obtain ⟨left, -, hleft, hstill, -⟩ := hserving.serves
  obtain ⟨hlookup, hrange⟩ := husing.serving.agree hserving
  -- The replaced segments are all held still, so that no other file is taken away.
  have hunshared : (world.act event).2.dir.Unshared := ((h.consistent hbefore).act event hroom).unshared
  have hsame : ∀ {last}, (world.act event).2 = world.after last → left = last.engine ∧
      after.memory = last.memory ∧ ∀ name, after.dir.holding name = last.snapshot.holding name := by
    intro last hact
    rw [hact] at hafter hunshared
    rw [← hafter] at hleft ⊢
    exact ⟨(Option.some.inj hleft).symm, rfl, holding_releaseFiles hunshared h.held⟩
  refine ⟨left, hleft, hstill, hlookup, hrange, ?_, ?_, fun hcompact => ?_⟩
  · rintro rfl
    obtain ⟨last, hact, hsegments, hflushed⟩ := husing.compact_fails hclear hanswer
    obtain ⟨rfl, -, hdir⟩ := hsame hact
    exact ⟨hsegments, fun name => (hdir name).trans (hflushed.untouched rfl name)⟩
  · rw [← hafter] at hleft ⊢
    exact husing.isEmpty_active hpersists hleft
  · have hevent : event = .flush ∨ event = .close := by
      cases event <;> first | exact .inl rfl | exact .inr rfl | exact absurd rfl hcompact | cases hpersists
    obtain ⟨last, error, hact, written, table, rest, hqueue, -, hflushed, -⟩ :=
      husing.flush_fails hclear hfilled hevent hroom hanswer
    obtain ⟨rfl, hmemory, hdir⟩ := hsame hact
    have hqueue : written ++ table :: rest = engine.waiting world.memory := hqueue
    refine ⟨written.length, ?_, ?_⟩
    · rw [← hqueue, List.length_append, List.length_cons]
      omega
    · rw [← hqueue, List.take_left, List.drop_left]
      exact hflushed.of_same rfl hmemory hdir

/-- A flush that fails, and another one that writes a table out before it fails in its turn. -/
def stuck : List Event :=
  [.load {}, .upsert (.put [1] [7]), .block "MANIFEST.tmp", .flush, .upsert (.put [2] [8]),
    .unblock "MANIFEST.tmp", .block "segment_000003.index"]

/-- The first table became a segment, the second one waits. -/
theorem failure_leaves_intact_stuck : ∃ engine fault after left,
    (World.empty.run stuck).2.engine = some engine ∧
    (World.empty.run stuck).2.step .flush = (.error fault, after) ∧ after.engine = some left ∧
    left.closed = false ∧ left.generations = [2] ∧ left.queue.length = 1 ∧
    (after.step (.lookup [1])).1 = ((World.empty.run stuck).2.step (.lookup [1])).1 ∧
    ∃ count, Flushed ((engine.waiting (World.empty.run stuck).2.memory).take count)
      ((engine.waiting (World.empty.run stuck).2.memory).drop count)
      ((World.empty.run stuck).2.workspace engine) (after.workspace left) := by
  have hreached : Reached (World.empty.run stuck).2 (Ledger.empty.noteAll .empty stuck) :=
    Reached.start.run stuck
  -- What can be computed is computed at once, since all of it needs the same run.
  obtain ⟨hpresent, hroom, hfault, hleft⟩ :
      (World.empty.run stuck).2.engine.any (fun engine => !engine.closed) = true ∧
      ((Ledger.empty.noteAll .empty stuck).note (World.empty.run stuck).2 .flush).handedOut <
        UInt64.size - 1 ∧
      ((World.empty.run stuck).2.step .flush).1.isOk = false ∧
      ((World.empty.run stuck).2.step .flush).2.engine.all
        (fun left => left.generations = [2] ∧ left.queue.length = 1) = true := by decide +kernel
  obtain ⟨engine, hengine, hpresent⟩ := (Option.any_eq_true _ _).1 hpresent
  have hopen : engine.closed = false := by simpa using hpresent
  cases hstep : (World.empty.run stuck).2.step .flush with
  | mk result after =>
    rw [hstep] at hfault hleft
    cases result with
    | ok answer => cases hfault
    | error fault =>
      obtain ⟨left, hafter, hstill, hlookup, -, -, -, hflushed⟩ :=
        failure_leaves_intact hreached hengine hopen rfl hroom hstep
      obtain ⟨count, -, hflushed⟩ := hflushed Event.noConfusion
      obtain ⟨hgenerations, hqueue⟩ := of_decide_eq_true ((Option.all_eq_true _ _).1 hleft left hafter)
      exact ⟨engine, fault, after, left, hengine, rfl, hafter, hstill, hgenerations, hqueue, hlookup [1],
        count, hflushed⟩

end World

end LsmTree
