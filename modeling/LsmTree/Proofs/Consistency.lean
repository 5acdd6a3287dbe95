import LsmTree.Proofs.Reopening

/-!
# The directory and the engine stay consistent

In every world that events lead to from an empty directory, the segments that a reopening would find have
a first part of the writes since the last opening, with all those that are durable. While an open engine
uses the directory, they are the segments of the engine:

* **`World.Using`**, **`World.Idle`** — the directory while an open engine uses it, and otherwise;
* **`World.Consistent.step`** — each event keeps the world consistent, as long as generations do not run
  out;
* **`World.Reached.consistent`** — so do all events together.
-/

namespace LsmTree

open Snapshot (SameFiles)
open Maintenance (Workspace Progress Growth Spares)

/-- Segments that have a first part of the writes, with all those that are durable. -/
def Ledger.Settles (ledger : Ledger) (segments : List Segment) : Prop :=
  ∃ settled, ledger.durable ≤ settled ∧ settled ≤ ledger.writes.length ∧
    Content.ofSegments segments = Content.after ledger.base (ledger.writes.take settled)

/-- Maintenance, which makes all writes durable if it succeeds. -/
def Event.persists : Event → Bool
  | .flush | .compact | .close => true
  | _ => false

namespace World

/-- An open engine uses the directory. -/
structure Using (world : World) (ledger : Ledger) (engine : Engine) : Prop where
  present : world.engine = some engine
  opened : engine.closed = false
  lays : ∃ settled, ledger.durable ≤ settled ∧
    Lays ledger.base ledger.writes settled world.memory engine
  kept : ∃ recorded, Kept recorded engine.manager.next engine.live world.dir ∧
    Spares world.replaced recorded engine.live
  next_le : engine.manager.next.toNat ≤ ledger.handedOut + 1
  waiting_le : engine.queue.length ≤ ledger.handedOut

/-- No open engine uses the directory; the one that is still there has closed it. -/
structure Idle (world : World) (ledger : Ledger) : Prop where
  closed : ∀ engine, world.engine = some engine →
    engine.closed = true ∧ ledger.durable = ledger.writes.length ∧ engine.live = [] ∧
      ∃ bytes, world.dir.holding FileName.manifest = .file bytes
  stored : ∃ recorded segments, Recoverable recorded segments world.dir ∧
    recorded.toNat ≤ ledger.handedOut + 1 ∧ Spares world.replaced recorded segments ∧
    ledger.Settles segments
  tidy : Tidy (ledger.handedOut + 1) world.dir

/-- The directory, the engine and what was written belong together. -/
def Consistent (world : World) (ledger : Ledger) : Prop :=
  (∃ engine, Using world ledger engine) ∨ Idle world ledger

variable {world : World} {ledger : Ledger} {engine : Engine}

theorem Using.keeps (h : Using world ledger engine) : ∃ recorded,
    (world.workspace engine).Keeps recorded ∧ Spares world.replaced recorded engine.live :=
  h.kept

theorem Using.unshared (h : Using world ledger engine) : world.dir.Unshared := by
  obtain ⟨recorded, hkept, -⟩ := h.kept
  exact hkept.unshared

theorem Using.sound (h : Using world ledger engine) : engine.Sound world.memory := by
  obtain ⟨settled, -, hlays⟩ := h.lays
  exact hlays.sound

theorem Using.serving (h : Using world ledger engine) : Serving ledger.base ledger.writes world := by
  obtain ⟨settled, -, hlays⟩ := h.lays
  exact ⟨h.unshared, engine, settled, h.present, h.opened, hlays⟩

/-- **The segments of an engine** have a first part of the writes. -/
theorem Using.settles (h : Using world ledger engine) : ledger.Settles engine.live := by
  obtain ⟨settled, hdurable, hlays⟩ := h.lays
  exact ⟨settled, hdurable, hlays.settled_le, hlays.segments⟩

theorem Idle.unshared (h : Idle world ledger) : world.dir.Unshared := by
  obtain ⟨recorded, segments, hrecoverable, -⟩ := h.stored
  exact hrecoverable.unshared

theorem Consistent.unshared (h : Consistent world ledger) : world.dir.Unshared := by
  rcases h with ⟨engine, h⟩ | h
  · exact h.unshared
  · exact h.unshared

/-- An empty directory that was never opened. -/
theorem Idle.start (contents : Contents) : Idle (.ofDir ⟨.empty, contents⟩) .empty where
  closed _ hengine := nomatch hengine
  stored := by
    refine ⟨0, [], .inr ⟨rfl, rfl, Snapshot.unshared_of_empty _, fun name bytes hfile => (nomatch hfile)⟩,
      Nat.zero_le _, fun handle hmem => (nomatch hmem), 0, Nat.le_refl _, Nat.le_refl _, rfl⟩
  tidy name bytes hfile := nomatch hfile

/-! ## Changes of the directory alone -/

/-- **Taking files of replaced segments away** keeps the world consistent. -/
theorem Using.releaseFiles (h : Using world ledger engine) :
    Using world.releaseFiles ledger engine := by
  obtain ⟨recorded, hkept, hspares⟩ := h.kept
  obtain ⟨released, hreleased, hreplaced, hremoved⟩ := releaseFiles_removed h.unshared
  exact ⟨h.present, h.opened, h.lays, ⟨recorded,
    (hspares.subset hreleased).released hkept hremoved.within, hspares.subset hreplaced⟩,
    h.next_le, h.waiting_le⟩

theorem Idle.releaseFiles (h : Idle world ledger) : Idle world.releaseFiles ledger := by
  obtain ⟨recorded, segments, hrecoverable, hrecorded, hspares, hsettles⟩ := h.stored
  obtain ⟨released, hreleased, hreplaced, hremoved⟩ := releaseFiles_removed h.unshared
  refine ⟨fun engine hengine => ?_, ⟨recorded, segments,
    hrecoverable.removed hremoved fun generation hmem => ?_, hrecorded, hspares.subset hreplaced,
    hsettles⟩, h.tidy.removed hremoved⟩
  · obtain ⟨hclosed, hdurable, hlive, bytes, hfile⟩ := h.closed engine hengine
    exact ⟨hclosed, hdurable, hlive, bytes, hremoved.file_iff.2 ⟨hfile, FileName.manifest_not_mem_halves _⟩⟩
  · obtain ⟨handle, hhandle, rfl⟩ := List.mem_map.1 hmem
    exact (hspares handle (hreleased hhandle)).2

theorem Consistent.releaseFiles (h : Consistent world ledger) :
    Consistent world.releaseFiles ledger := by
  rcases h with ⟨engine, h⟩ | h
  · exact .inl ⟨engine, h.releaseFiles⟩
  · exact .inr h.releaseFiles

/-- So does **a change from outside** that leaves the files as they are. -/
theorem Consistent.change {changed : Except OsError Directory} (h : Consistent world ledger)
    (hsame : ∀ names, changed = .ok names → SameFiles world.dir { world.dir with names }) :
    Consistent (world.change changed).2 ledger := by
  cases hcase : changed with
  | error cause => exact h
  | ok names =>
    have hsame := hsame names hcase
    rcases h with ⟨engine, h⟩ | h
    · obtain ⟨recorded, hkept, hspares⟩ := h.kept
      exact .inl ⟨engine, h.present, h.opened, h.lays,
        ⟨recorded, hkept.of_sameFiles hsame, hspares⟩, h.next_le, h.waiting_le⟩
    · obtain ⟨recorded, segments, hrecoverable, hrest⟩ := h.stored
      refine .inr ⟨fun engine hengine => ?_,
        ⟨recorded, segments, hrecoverable.of_sameFiles hsame, hrest⟩, h.tidy.of_sameFiles hsame⟩
      obtain ⟨hclosed, hdurable, hlive, bytes, hfile⟩ := h.closed engine hengine
      exact ⟨hclosed, hdurable, hlive, bytes, (hsame.same _ _).2 hfile⟩

/-! ## Letting go of the engine -/

/-- An engine that is let go leaves the directory as it is committed. -/
theorem Using.forget (h : Using world ledger engine) :
    Idle { world with engine := none } ledger := by
  obtain ⟨recorded, hkept, hspares⟩ := h.kept
  have hrecorded := UInt64.le_iff_toNat_le.1 hkept.recorded_le
  exact ⟨fun _ hengine => (nomatch hengine), ⟨recorded, engine.live, hkept.recoverable,
    Nat.le_trans hrecorded h.next_le, hspares, h.settles⟩, hkept.tidy.mono h.next_le⟩

theorem Idle.forget (h : Idle world ledger) : Idle { world with engine := none } ledger :=
  ⟨fun _ hengine => (nomatch hengine), h.stored, h.tidy⟩

theorem Consistent.forget (h : Consistent world ledger) :
    Idle { world with engine := none } ledger := by
  rcases h with ⟨engine, h⟩ | h
  · exact h.forget
  · exact h.forget

theorem Idle.durable (h : Idle world ledger) (hnone : world.engine = none) {durable : Nat}
    (hle : durable ≤ ledger.durable) : Idle world { ledger with durable } := by
  obtain ⟨recorded, segments, hrecoverable, hrecorded, hspares, settled, hdurable, hsettled⟩ := h.stored
  exact ⟨fun engine hengine => absurd hengine (hnone ▸ nofun), ⟨recorded, segments, hrecoverable,
    hrecorded, hspares, settled, Nat.le_trans hle hdurable, hsettled⟩, h.tidy⟩

/-! ## Notes -/

theorem note_handedOut (event : Event) :
    (ledger.note world event).handedOut = ledger.handedOut + world.handsOut event := by
  rw [Ledger.note]
  dsimp only
  split <;> rfl

theorem handedOut_le_note (event : Event) : ledger.handedOut ≤ (ledger.note world event).handedOut := by
  rw [note_handedOut]
  exact Nat.le_add_right _ _

theorem note_error {event : Event} {fault : StepFault} (h : (world.act event).1 = .error fault) :
    ledger.note world event = { ledger with handedOut := ledger.handedOut + world.handsOut event } := by
  rw [Ledger.note, step_eq, h]
  cases event <;> rfl

theorem note_ok {event : Event} {answer : Answer} (hpersists : event.persists = true)
    (h : (world.act event).1 = .ok answer) : ledger.note world event =
      { ledger with
        durable := ledger.writes.length, handedOut := ledger.handedOut + world.handsOut event } := by
  rw [Ledger.note, step_eq, h]
  cases event with
  | flush => rfl
  | compact => rfl
  | close => rfl
  | _ => cases hpersists

/-! ## Maintenance -/

theorem Using.room (h : Using world ledger engine) {handed : Nat}
    (hroom : ledger.handedOut + handed < UInt64.size - 1) :
    (world.workspace engine).next.toNat + handed < UInt64.size := by
  have hnext : (world.workspace engine).next.toNat ≤ ledger.handedOut + 1 := h.next_le
  omega

theorem Using.spent (h : Using world ledger engine) {α : Type} {step : Maintenance.MaintenanceM α}
    {handed : Nat} {complete : Prop} {last : Workspace}
    (hprogress : Progress (world.workspace engine) handed complete last)
    (hnext : (step.run.run (world.workspace engine)).2.next = last.next)
    (hroom : ledger.handedOut < UInt64.size - 1) : world.spent step = handed := by
  have hhanded : handed ≤ engine.queue.length + 1 := hprogress.handed_le
  have hwaiting := h.waiting_le
  rw [World.spent, h.present]
  show ((step.run.run (world.workspace engine)).2.next - engine.manager.next).toNat = handed
  rw [hnext, hprogress.next]
  show (engine.manager.next + .ofNat handed - engine.manager.next).toNat = handed
  rw [UInt64.add_comm, UInt64.add_sub_cancel, UInt64.toNat_ofNat_of_lt']
  show handed < UInt64.size
  omega

/-- The segments after progress of maintenance are committed, and none of them was replaced. -/
theorem Using.keeps_after (h : Using world ledger engine) {handed : Nat} {complete : Prop}
    {last : Workspace} (hprogress : Progress (world.workspace engine) handed complete last)
    (hroom : ledger.handedOut + handed < UInt64.size - 1) :
    ∃ recorded, last.Keeps recorded ∧ Spares world.replaced recorded last.engine.live := by
  obtain ⟨recorded, hkeeps, hspares⟩ := h.keeps
  obtain ⟨recorded', hle, hkeeps'⟩ := hprogress.keeps hkeeps (h.room hroom)
  exact ⟨recorded', hkeeps', hspares.progress hprogress hkeeps (h.room hroom) hle⟩

/-- **Progress of maintenance** keeps the engine in use, with all writes durable if it is complete. -/
theorem Using.progress (h : Using world ledger engine) {handed durable : Nat} {complete : Prop}
    {last : Workspace} {replaced : List Handle}
    (hprogress : Progress (world.workspace engine) handed complete last)
    (hroom : ledger.handedOut + handed < UInt64.size - 1)
    (hkept : ∃ recorded, last.Keeps recorded ∧ Spares replaced recorded last.engine.live)
    (hdurable : durable = ledger.durable ∨ complete ∧ durable = ledger.writes.length) :
    Using { world.after last with replaced }
      { ledger with durable, handedOut := ledger.handedOut + handed } last.engine := by
  obtain ⟨settled, hle, hlays⟩ := h.lays
  obtain ⟨settled', hmono, hlays', hall⟩ := hprogress.lays hlays
  refine ⟨rfl, hprogress.closed.trans h.opened, ⟨settled', ?_, hlays'⟩, hkept, ?_, ?_⟩
  · rcases hdurable with rfl | ⟨hcomplete, rfl⟩
    · exact Nat.le_trans hle hmono
    · exact Nat.le_of_eq (hall hcomplete).symm
  · have hnext : last.next.toNat = engine.manager.next.toNat + handed := by
      rw [hprogress.next]
      exact toNat_add_ofNat (h.room hroom)
    show last.next.toNat ≤ ledger.handedOut + handed + 1
    have := h.next_le
    omega
  · have hwaiting : last.engine.queue.length ≤ engine.queue.length + handed := hprogress.waiting_le
    show last.engine.queue.length ≤ ledger.handedOut + handed
    have := h.waiting_le
    omega

theorem Using.handsOut_flush (h : Using world ledger engine) (hroom : ledger.handedOut < UInt64.size - 1) :
    world.handsOut .flush = Maintenance.flushed (world.workspace engine) := by
  have hruns : Runs _ (world.workspace engine) _ _ :=
    Maintenance.runs_flush h.opened h.unshared h.sound
  obtain ⟨hgrowth, -⟩ := hruns.apply (Disk.plain_ofSnapshot world.dir)
  exact h.spent hgrowth.toProgress rfl hroom

theorem Using.handsOut_compact (h : Using world ledger engine) (hroom : ledger.handedOut < UInt64.size - 1) :
    world.handsOut .compact = Maintenance.merges (world.workspace engine) := by
  have hruns : Runs _ (world.workspace engine) _ _ :=
    Maintenance.runs_compact world.isHeld h.opened h.unshared h.sound
  obtain ⟨hpost, -⟩ := hruns.apply (Disk.plain_ofSnapshot world.dir)
  cases hresult : ((Maintenance.compact world.isHeld).run.run (world.workspace engine)).1 with
  | ok replaced =>
    rw [hresult] at hpost
    exact h.spent hpost.1 rfl hroom
  | error error =>
    rw [hresult] at hpost
    exact h.spent (Growth.toProgress hpost) rfl hroom

theorem Using.handsOut_close (h : Using world ledger engine) (hroom : ledger.handedOut < UInt64.size - 1) :
    world.handsOut .close = Maintenance.flushed (world.workspace engine) := by
  have hruns : Runs _ (world.workspace engine) _ _ :=
    Maintenance.runs_close h.opened h.unshared h.sound
  obtain ⟨hpost, -⟩ := hruns.apply (Disk.plain_ofSnapshot world.dir)
  cases hresult : (Maintenance.close.run.run (world.workspace engine)).1 with
  | ok value =>
    rw [hresult] at hpost
    obtain ⟨last, hgrowth, hlast⟩ := hpost
    exact h.spent hgrowth.toProgress (by rw [hlast]; rfl) hroom
  | error error =>
    rw [hresult] at hpost
    exact h.spent (Growth.toProgress hpost) rfl hroom

/-- **A flush** keeps the engine in use. -/
theorem Using.flush (h : Using world ledger engine)
    (hroom : (ledger.note world .flush).handedOut < UInt64.size - 1) :
    Consistent (world.act .flush).2 (ledger.note world .flush) := by
  have hruns : Runs _ (world.workspace engine) _ _ :=
    Maintenance.runs_flush h.opened h.unshared h.sound
  obtain ⟨⟨hprogress, -⟩, -⟩ := hruns.apply (Disk.plain_ofSnapshot world.dir)
  rw [note_handedOut] at hroom
  have hspent := h.handsOut_flush (Nat.lt_of_le_of_lt (Nat.le_add_right _ _) hroom)
  rw [hspent] at hroom
  have hkept := h.keeps_after hprogress hroom
  have hact : world.act .flush =
      (((Maintenance.flush.run.run (world.workspace engine)).1.mapError StepFault.store).map fun _ =>
        .done, world.after (Maintenance.flush.run.run (world.workspace engine)).2) := by
    rw [act, maintain_eq _ h.present]
  cases hresult : (Maintenance.flush.run.run (world.workspace engine)).1 with
  | ok value =>
    rw [hresult] at hact
    rw [note_ok rfl (congrArg Prod.fst hact), hspent, hact]
    exact .inl ⟨_, h.progress hprogress hroom hkept (.inr ⟨hresult, rfl⟩)⟩
  | error error =>
    rw [hresult] at hact
    rw [note_error (congrArg Prod.fst hact), hspent, hact]
    exact .inl ⟨_, h.progress hprogress hroom hkept (.inl rfl)⟩

/-- **A compaction** keeps the engine in use, and replaces segments that are not committed any more. -/
theorem Using.compact (h : Using world ledger engine)
    (hroom : (ledger.note world .compact).handedOut < UInt64.size - 1) :
    Consistent (world.act .compact).2 (ledger.note world .compact) := by
  have hruns : Runs _ (world.workspace engine) _ _ :=
    Maintenance.runs_compact world.isHeld h.opened h.unshared h.sound
  obtain ⟨hpost, -⟩ := hruns.apply (Disk.plain_ofSnapshot world.dir)
  rw [note_handedOut] at hroom
  have hspent := h.handsOut_compact (Nat.lt_of_le_of_lt (Nat.le_add_right _ _) hroom)
  rw [hspent] at hroom
  have hact : world.act .compact =
      (((Maintenance.compact world.isHeld).run.run (world.workspace engine)).1.mapError
        StepFault.store |>.map fun _ => .done,
      { world.after ((Maintenance.compact world.isHeld).run.run (world.workspace engine)).2 with
        replaced := world.replaced ++ (((Maintenance.compact world.isHeld).run.run
          (world.workspace engine)).1.mapError StepFault.store).toOption.getD [] }) := by
    rw [act, maintain_eq _ h.present]
    rfl
  cases hresult : ((Maintenance.compact world.isHeld).run.run (world.workspace engine)).1 with
  | ok replaced =>
    rw [hresult] at hact hpost
    obtain ⟨hprogress, hretires⟩ := hpost
    rw [note_ok rfl (congrArg Prod.fst hact), hspent, hact]
    refine .inl ⟨_, h.progress hprogress hroom ?_ (.inr ⟨trivial, rfl⟩)⟩
    obtain ⟨recorded, hkeeps, hspares⟩ := h.keeps
    obtain ⟨recorded', hle, hkeeps', hspares'⟩ := hretires.delisted hkeeps (h.room hroom)
    exact ⟨recorded', hkeeps', (hspares.progress hprogress hkeeps (h.room hroom) hle).append
      (hspares'.subset hretires.subset)⟩
  | error error =>
    rw [hresult] at hact hpost
    obtain ⟨hprogress, -⟩ := hpost
    rw [note_error (congrArg Prod.fst hact), hspent, hact]
    refine .inl ⟨_, h.progress hprogress hroom ?_ (.inl rfl)⟩
    have hnone : (Except.mapError StepFault.store (.error error : Except Error (List Handle))).toOption.getD
        [] = [] := rfl
    rw [hnone, List.append_nil]
    exact h.keeps_after hprogress hroom

/-- **A closing** either keeps the engine in use or leaves the directory with all writes in it. -/
theorem Using.close (h : Using world ledger engine)
    (hroom : (ledger.note world .close).handedOut < UInt64.size - 1) :
    Consistent (world.act .close).2 (ledger.note world .close) := by
  have hruns : Runs _ (world.workspace engine) _ _ :=
    Maintenance.runs_close h.opened h.unshared h.sound
  obtain ⟨hpost, -⟩ := hruns.apply (Disk.plain_ofSnapshot world.dir)
  rw [note_handedOut] at hroom
  have hspent := h.handsOut_close (Nat.lt_of_le_of_lt (Nat.le_add_right _ _) hroom)
  rw [hspent] at hroom
  have hact : world.act .close =
      (((Maintenance.close.run.run (world.workspace engine)).1.mapError StepFault.store).map fun _ =>
        .done, world.after (Maintenance.close.run.run (world.workspace engine)).2) := by
    rw [act, maintain_eq _ h.present]
  cases hresult : (Maintenance.close.run.run (world.workspace engine)).1 with
  | ok value =>
    rw [hresult] at hact hpost
    obtain ⟨last, ⟨hprogress, -⟩, hlast⟩ := hpost
    rw [note_ok rfl (congrArg Prod.fst hact), hspent, hact, hlast]
    have hkept := h.keeps_after hprogress hroom
    have husing := h.progress hprogress hroom hkept (.inr ⟨trivial, rfl⟩)
    obtain ⟨-, hstored, htidy⟩ := husing.forget
    refine .inr ⟨fun engine hengine => ?_, hstored, htidy⟩
    cases hengine
    obtain ⟨recorded, hkeeps, -⟩ := hkept
    obtain ⟨bytes, -, hfile⟩ := hkeeps.committed.written
    exact ⟨rfl, rfl, rfl, bytes, hfile⟩
  | error error =>
    rw [hresult] at hact hpost
    obtain ⟨hprogress, -⟩ := hpost
    rw [note_error (congrArg Prod.fst hact), hspent, hact]
    exact .inl ⟨_, h.progress hprogress hroom (h.keeps_after hprogress hroom) (.inl rfl)⟩

theorem maintain_same {α : Type} (step : Maintenance.MaintenanceM α)
    (h : ∀ engine, world.engine = some engine →
      (step.run.run (world.workspace engine)).2 = world.workspace engine) :
    (world.maintain step).2 = world ∧ world.spent step = 0 := by
  cases hengine : world.engine with
  | none =>
    rw [maintain, spent, hengine]
    exact ⟨rfl, rfl⟩
  | some engine =>
    rw [maintain_eq _ hengine, spent, hengine]
    dsimp only
    rw [h engine hengine]
    constructor
    · cases world
      cases hengine
      rfl
    · show (engine.manager.next - engine.manager.next).toNat = 0
      rw [UInt64.sub_self]
      rfl

/-- **A closed engine**, or none, leaves the directory as it is in maintenance. -/
theorem act_closed (hclosed : ∀ engine, world.engine = some engine → engine.closed = true) {event : Event}
    (hpersists : event.persists = true) : (world.act event).2 = world ∧ world.handsOut event = 0 := by
  cases event with
  | flush =>
    obtain ⟨hsame, hspent⟩ := world.maintain_same Maintenance.flush fun engine hengine => by
      rw [Maintenance.run_flush_closed (hclosed engine hengine)]
    exact ⟨hsame, hspent⟩
  | compact =>
    obtain ⟨hsame, hspent⟩ := world.maintain_same (Maintenance.compact world.isHeld)
      fun engine hengine => by rw [Maintenance.run_compact_closed _ (hclosed engine hengine)]
    refine ⟨?_, hspent⟩
    have hnothing : (world.maintain (Maintenance.compact world.isHeld)).1.toOption.getD [] = [] := by
      cases hengine : world.engine with
      | none =>
        rw [maintain, hengine]
        rfl
      | some engine =>
        rw [maintain_eq _ hengine, Maintenance.run_compact_closed _ (hclosed engine hengine)]
        rfl
    show { (world.maintain (Maintenance.compact world.isHeld)).2 with
      replaced := (world.maintain (Maintenance.compact world.isHeld)).2.replaced ++
        (world.maintain (Maintenance.compact world.isHeld)).1.toOption.getD [] } = world
    rw [hnothing, List.append_nil, hsame]
  | close =>
    obtain ⟨hsame, hspent⟩ := world.maintain_same Maintenance.close fun engine hengine => by
      rw [Maintenance.run_close_closed (hclosed engine hengine)]
    exact ⟨hsame, hspent⟩
  | _ => cases hpersists

/-- So it is with **a directory that no open engine uses**. -/
theorem Idle.act_eq (h : Idle world ledger) {event : Event} (hpersists : event.persists = true) :
    (world.act event).2 = world ∧ world.handsOut event = 0 :=
  act_closed (fun engine hengine => (h.closed engine hengine).1) hpersists

theorem maintain_none {α : Type} (step : Maintenance.MaintenanceM α) (hnone : world.engine = none) :
    world.maintain step = (.error .noObject, world) := by
  rw [maintain, hnone]

/-- Nothing of it is noted either. -/
theorem Idle.note_eq (h : Idle world ledger) {event : Event} (hpersists : event.persists = true) :
    ledger.note world event = ledger := by
  have hspent := (h.act_eq hpersists).2
  cases hanswer : (world.act event).1 with
  | error fault =>
    rw [note_error hanswer, hspent]
    rfl
  | ok answer =>
    -- Maintenance succeeds only if there is an engine, which is closed then.
    have hdurable : ledger.durable = ledger.writes.length := by
      cases hengine : world.engine with
      | some engine => exact (h.closed engine hengine).2.1
      | none =>
        cases event with
        | flush =>
          rw [act, maintain_none _ hengine] at hanswer
          cases hanswer
        | compact =>
          rw [act, maintain_none _ hengine] at hanswer
          cases hanswer
        | close =>
          rw [act, maintain_none _ hengine] at hanswer
          cases hanswer
        | _ => cases hpersists
    rw [note_ok hpersists hanswer, hspent, ← hdurable]
    rfl

/-- **Maintenance** keeps the world consistent, whether it succeeds or not. -/
theorem Consistent.maintenance (h : Consistent world ledger) {event : Event}
    (hpersists : event.persists = true)
    (hroom : (ledger.note world event).handedOut < UInt64.size - 1) :
    Consistent (world.act event).2 (ledger.note world event) := by
  rcases h with ⟨engine, h⟩ | h
  · cases event with
    | flush => exact h.flush hroom
    | compact => exact h.compact hroom
    | close => exact h.close hroom
    | _ => cases hpersists
  · rw [(h.act_eq hpersists).1, h.note_eq hpersists]
    exact .inr h

theorem Consistent.durable_le (h : Consistent world ledger) :
    ledger.durable ≤ ledger.writes.length := by
  rcases h with ⟨engine, h⟩ | h
  · obtain ⟨settled, hdurable, hsettled, -⟩ := h.settles
    exact Nat.le_trans hdurable hsettled
  · obtain ⟨-, -, -, -, -, settled, hdurable, hsettled, -⟩ := h.stored
    exact Nat.le_trans hdurable hsettled

/-! ## Dropping and opening -/

/-- **An engine that is dropped** leaves the directory to others as a closing leaves it. -/
theorem Consistent.discard (h : Consistent world ledger)
    (hroom : ledger.handedOut + world.handsOut .close < UInt64.size - 1) :
    Idle world.discard { ledger with handedOut := ledger.handedOut + world.handsOut .close } := by
  rw [← note_handedOut] at hroom
  have hclosed : Consistent (world.act .close).2 (ledger.note world .close) := h.maintenance rfl hroom
  have hidle : Idle world.discard (ledger.note world .close) := hclosed.forget
  cases hanswer : (world.act .close).1 with
  | ok answer =>
    rw [note_ok rfl hanswer] at hidle
    exact hidle.durable rfl h.durable_le
  | error fault =>
    rw [note_error hanswer] at hidle
    exact hidle

/-- **An opening** that succeeds finds segments that have a first part of the writes. -/
theorem Idle.load (h : Idle world ledger) (hnone : world.engine = none)
    (hroom : ledger.handedOut < UInt64.size - 1) (config : Config) :
    (∃ answer opened segments engine, world.load config = (.ok answer, opened) ∧
      ledger.Settles segments ∧ Opened segments opened.releaseFiles engine ∧
      Using opened ⟨Content.ofSegments segments, [], 0, ledger.handedOut⟩ engine) ∨
    (∃ fault left, world.load config = (.error fault, left) ∧ Idle left ledger) := by
  obtain ⟨recorded, segments, hrecoverable, hrecorded, hspares, hsettles⟩ := h.stored
  rcases load_opened config hrecoverable h.tidy hrecorded (Nat.succ_pos _) (by omega) with
    ⟨answer, opened, engine, hload, hopened, hle, hnext, hreplaced⟩ |
    ⟨fault, dir, hload, hleft, htidy, -⟩
  · rw [← hreplaced] at hspares
    refine .inl ⟨answer, opened, segments, engine, hload, hsettles, hopened.releaseFiles hspares hle,
      hopened.present, hopened.opened, ⟨0, Nat.le_refl _, hopened.lays⟩,
      ⟨engine.manager.next, ?_, ?_⟩, hnext, ?_⟩
    · rw [hopened.live]
      exact hopened.kept
    · rw [hopened.live]
      exact fun handle hmem =>
        ⟨UInt64.lt_of_lt_of_le (hspares handle hmem).1 hle, (hspares handle hmem).2⟩
    · rw [hopened.queue]
      exact Nat.zero_le _
  · exact .inr ⟨fault, _, hload, fun engine hengine => absurd hengine (hnone ▸ nofun),
      ⟨recorded, segments, hleft, hrecorded, hspares, hsettles⟩, htidy⟩

theorem note_load_ok {config : Config} {answer : Answer} {opened : World}
    (h : world.step (.load config) = (.ok answer, opened)) : ledger.note world (.load config) =
      ⟨opened.shown, [], 0, ledger.handedOut + world.handsOut (.load config)⟩ := by
  rw [Ledger.note, h]

/-- **Opening** keeps the world consistent, whether it succeeds or not. -/
theorem Consistent.load (h : Consistent world ledger) (config : Config)
    (hroom : (ledger.note world (.load config)).handedOut < UInt64.size - 1) :
    Consistent (world.act (.load config)).2 (ledger.note world (.load config)) := by
  rw [note_handedOut] at hroom
  rcases (h.discard hroom).load rfl hroom config with
    ⟨answer, opened, segments, engine, hload, -, hopened, husing⟩ | ⟨fault, left, hload, hleft⟩
  · have hstep : world.step (.load config) = (.ok answer, opened.releaseFiles) := by
      rw [step_eq, act, hload]
    rw [note_load_ok hstep, hopened.serving.shown, act, hload]
    exact .inl ⟨engine, husing⟩
  · have hact : world.act (.load config) = (.error fault, left) := hload
    rw [note_error (congrArg Prod.fst hact), hact]
    exact .inr hleft

/-! ## Steps -/

/-- **A write** is noted if it is accepted. -/
theorem Consistent.upsert (h : Consistent world ledger) (entry : Entry) :
    Consistent (world.act (.upsert entry)).2 (ledger.note world (.upsert entry)) := by
  rcases world.act_upsert entry with ⟨fault, hact⟩ | ⟨engine, hengine, hopen, hact⟩
  · rw [note_error (congrArg Prod.fst hact), hact]
    exact h
  · have hnote : ledger.note world (.upsert entry) =
        { ledger with writes := ledger.writes ++ [entry] } := by
      rw [Ledger.note, step_eq, hact]
      rfl
    rw [hnote, hact]
    rcases h with ⟨engine', h⟩ | h
    · obtain rfl : engine = engine' := Option.some.inj (hengine.symm.trans h.present)
      obtain ⟨settled, hdurable, hlays⟩ := h.lays
      exact .inl ⟨engine, h.present, h.opened, ⟨settled, hdurable, hlays.insert entry⟩, h.kept, h.next_le,
        h.waiting_le⟩
    · rw [(h.closed engine hengine).1] at hopen
      cases hopen

theorem note_reading {event : Event} (h : event.isReading = true) :
    ledger.note world event = ledger := by
  cases event with
  | lookup key => rfl
  | range bounds => rfl
  | cursor name bounds => rfl
  | next name => rfl
  | release name => rfl
  | _ => cases h

theorem Consistent.act (h : Consistent world ledger) (event : Event)
    (hroom : (ledger.note world event).handedOut < UInt64.size - 1) :
    Consistent (world.act event).2 (ledger.note world event) := by
  have hreading : event.isReading = true →
      Consistent (world.act event).2 (ledger.note world event) := fun hread => by
    obtain ⟨cursors, hact⟩ := act_reading world hread
    rw [hact, note_reading hread]
    rcases h with ⟨engine, h⟩ | h
    · exact .inl ⟨engine, h.present, h.opened, h.lays, h.kept, h.next_le, h.waiting_le⟩
    · exact .inr ⟨h.closed, h.stored, h.tidy⟩
  cases event with
  | load config => exact h.load config hroom
  | upsert entry => exact h.upsert entry
  | flush => exact h.maintenance rfl hroom
  | compact => exact h.maintenance rfl hroom
  | close => exact h.maintenance rfl hroom
  | drop =>
    rw [note_handedOut] at hroom
    exact .inr (h.discard hroom)
  | crash => exact .inr h.forget
  | block name => exact h.change fun names hnames => .makeFolder h.unshared hnames
  | unblock name => exact h.change fun names hnames => .removeFolder h.unshared hnames
  | _ => exact hreading rfl

/-- **Each event** keeps the world consistent, as long as there are generations left. -/
theorem Consistent.step (h : Consistent world ledger) (event : Event)
    (hroom : (ledger.note world event).handedOut < UInt64.size - 1) :
    Consistent (world.step event).2 (ledger.note world event) :=
  (h.act event hroom).releaseFiles

/-- **All worlds** that events lead to are consistent, as long as there were generations left. -/
theorem Reached.consistent (h : Reached world ledger) (hroom : ledger.handedOut < UInt64.size - 1) :
    Consistent world ledger := by
  induction h with
  | start => exact .inr (.start _)
  | @step world ledger h event ih =>
    refine (ih ?_).step event hroom
    rw [note_handedOut] at hroom
    exact Nat.lt_of_le_of_lt (Nat.le_add_right _ _) hroom

end World

end LsmTree
