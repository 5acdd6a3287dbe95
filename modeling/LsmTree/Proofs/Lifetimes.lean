import LsmTree.Proofs.Agreement
import LsmTree.Proofs.HeldSegments
import LsmTree.Proofs.SegmentRoundTrip

/-!
# How long files last

The files of a segment are there from its commit on. A compaction that replaces the segment ends that,
but not before the last cursor has let go of it: then its files are taken away, and no sooner and no later.

* **`World.retired`** — the segments that the compactions of a run replace;
* **`World.Tended`** — the segments that are kept and those that were replaced, in one directory while it
  is used by one engine; **`Tended.step`** and **`Tended.run`**: it stays so;
* **`World.replaced_files_last`** — so it is after every event.
-/

namespace LsmTree

open Snapshot (SameFiles Removed)
open Maintenance (Workspace Progress Growth Retires)
open Merge (Draws)

namespace World

variable {world : World} {ledger : Ledger} {engine : Engine} {kept past : List Handle} {event : Event}

/-- The opened segments of the engine. -/
def handles (world : World) : List Handle := world.engine.elim [] Engine.segments

/-- The segments that an event replaces: a compaction that succeeds replaces all there are. -/
def replaces (world : World) (event : Event) : List Handle :=
  match event, (world.step event).1 with
  | .compact, .ok _ => world.handles
  | _, _ => []

/-- The segments that the compactions of a run replace. -/
def retired (world : World) : List Event → List Handle
  | [] => []
  | event :: rest => world.replaces event ++ (world.step event).2.retired rest

theorem replaces_of_ne (h : event ≠ .compact) : world.replaces event = [] := by
  cases event with
  | compact => exact absurd rfl h
  | _ => rfl

theorem replaces_of_error {fault : StepFault} (h : (world.act event).1 = .error fault) :
    world.replaces event = [] := by
  unfold replaces
  rw [step_eq, h]
  cases event <;> rfl

theorem replaces_of_ok {answer : Answer} (h : (world.act .compact).1 = .ok answer) :
    world.replaces .compact = world.handles := by
  unfold replaces
  rw [step_eq, h]

/-! ## Segments that are kept and segments that were replaced

As long as a directory is used by one engine, the segments that it ever had are of two kinds. Those that
no compaction has replaced have their files. Of the others each is among those whose files are to be taken
away, and has them still, or is not held any more, and has none. -/

/-- The segments that are kept and those that were replaced, in the directory of one engine. -/
structure Tended (kept past : List Handle) (world : World) : Prop where
  handles : world.handles ⊆ kept
  opened : ∀ engine, world.engine = some engine → engine.closed = false → engine.segments = kept
  stored : ∀ handle ∈ kept, Stored world.dir handle.segment
  retired : ∀ handle ∈ past, handle ∈ world.replaced ∧ Stored world.dir handle.segment ∨
    world.isHeld handle = false ∧ ∀ half bytes,
      world.dir.holding (FileName.segment half handle.segment.generation) ≠ .file bytes
  apart : ∀ handle ∈ kept, ∀ other ∈ past ++ world.replaced,
    handle.segment.generation ≠ other.segment.generation
  distinct : ∀ handle ∈ past, ∀ other ∈ world.replaced,
    handle.segment.generation = other.segment.generation → handle = other
  serial_ne : ∀ handle ∈ kept, ∀ other ∈ past, handle.serial ≠ other.serial
  serial_lt : ∀ handle ∈ kept ++ past, handle.serial < world.memory.openings
  below : ∀ engine, world.engine = some engine → engine.closed = false →
    ∀ handle ∈ past, handle.segment.generation < engine.manager.next

/-- A replaced segment that no cursor holds is not taken up again. -/
theorem Tended.isHeld_act (h : Tended kept past world) {handle : Handle} (hmem : handle ∈ past)
    (hheld : (world.act event).2.isHeld handle = true) : world.isHeld handle = true := by
  refine (World.isHeld_act hheld).resolve_right ?_
  rintro ⟨engine, hengine, hopen, held, hsegment, hserial⟩
  exact h.serial_ne held (h.opened engine hengine hopen ▸ hsegment) handle hmem hserial

/-- Changes that make no segment and take no file away. -/
theorem Tended.of_same {after : World} (h : Tended kept past world) (hsame : SameFiles world.dir after.dir)
    (hreplaced : after.replaced = world.replaced)
    (hopenings : after.memory.openings = world.memory.openings)
    (hengine : after.engine = world.engine ∨
      ∀ engine, after.engine = some engine → engine.closed = true ∧ engine.segments = [])
    (hheld : ∀ handle ∈ past, after.isHeld handle = true → world.isHeld handle = true) :
    Tended kept past after where
  handles := by
    rcases hengine with hengine | hclosed
    · rw [World.handles, hengine]
      exact h.handles
    · cases hcase : after.engine with
      | none =>
        rw [World.handles, hcase]
        exact List.nil_subset _
      | some engine =>
        rw [World.handles, hcase]
        show engine.segments ⊆ kept
        rw [(hclosed engine hcase).2]
        exact List.nil_subset _
  opened engine hsome hopen := by
    rcases hengine with hengine | hclosed
    · exact h.opened engine (hengine ▸ hsome) hopen
    · exact absurd (hclosed engine hsome).1 (by simp [hopen])
  stored handle hmem := (h.stored handle hmem).of_sameFiles hsame
  retired handle hmem := by
    rcases h.retired handle hmem with ⟨hin, hstored⟩ | ⟨hunheld, hgone⟩
    · exact .inl ⟨hreplaced ▸ hin, hstored.of_sameFiles hsame⟩
    · refine .inr ⟨Bool.eq_false_iff.2 fun hafter => ?_, fun half bytes hfile => ?_⟩
      · exact absurd (hheld handle hmem hafter) (by simp [hunheld])
      · exact hgone half bytes ((hsame.same _ _).1 hfile)
  apart := hreplaced ▸ h.apart
  distinct := hreplaced ▸ h.distinct
  serial_ne := h.serial_ne
  serial_lt := hopenings ▸ h.serial_lt
  below engine hsome hopen := by
    rcases hengine with hengine | hclosed
    · exact h.below engine (hengine ▸ hsome) hopen
    · exact absurd (hclosed engine hsome).1 (by simp [hopen])

/-- **Files are taken away** of segments that were replaced and are not held. -/
theorem Tended.releaseFiles (h : Tended kept past world) (hu : world.dir.Unshared) :
    Tended kept past world.releaseFiles := by
  have hremoved := releaseFiles_unheld hu
  have hsub : world.releaseFiles.replaced ⊆ world.replaced := by
    rw [replaced_releaseFiles]
    exact List.filter_sublist.subset
  -- A segment keeps its files if it has the generation of none that is taken away.
  have hlasts : ∀ {handle : Handle}, Stored world.dir handle.segment →
      (∀ other ∈ world.replaced, world.isHeld other = false →
        handle.segment.generation ≠ other.segment.generation) →
      Stored world.releaseFiles.dir handle.segment := by
    intro handle hstored hother
    refine hstored.within hremoved.within fun half hname => ?_
    obtain ⟨segment, hsegment, half', hname⟩ := mem_filesOf.1 hname
    obtain ⟨other, hunheld, rfl⟩ := List.mem_map.1 hsegment
    obtain ⟨hmem, hunheld⟩ := List.mem_filter.1 hunheld
    exact hother other hmem (by simpa using hunheld) (FileName.segment_injective hname).2
  refine { h with
    stored := fun handle hmem => hlasts (h.stored handle hmem) fun other hother _ =>
      h.apart handle hmem other (List.mem_append_right _ hother)
    retired := fun handle hmem => ?_
    apart := fun handle hmem other hother => h.apart handle hmem other ?_
    distinct := fun handle hmem other hother => h.distinct handle hmem other (hsub hother) }
  · rcases h.retired handle hmem with ⟨hin, hstored⟩ | ⟨hunheld, hgone⟩
    · cases hheld : world.isHeld handle with
      | true =>
        refine .inl ⟨?_, hlasts hstored fun other hother hunheld hsame => ?_⟩
        · rw [replaced_releaseFiles]
          exact List.mem_filter.2 ⟨hin, hheld⟩
        · rw [h.distinct handle hmem other hother hsame, hunheld] at hheld
          cases hheld
      | false =>
        refine .inr ⟨hheld, fun half bytes hfile => (hremoved.file_iff.1 hfile).2 (mem_filesOf.2 ?_)⟩
        exact ⟨_, List.mem_map_of_mem (List.mem_filter.2 ⟨hin, by simp [hheld]⟩), half, rfl⟩
    · exact .inr ⟨hunheld, fun half bytes hfile => hgone half bytes (hremoved.file_iff.1 hfile).1⟩
  · rcases List.mem_append.1 hother with hpast | hreplaced
    · exact List.mem_append_left _ hpast
    · exact List.mem_append_right _ (hsub hreplaced)

/-! ## Maintenance -/

section Progress

variable {handed : Nat} {complete : Prop} {last : Workspace}

/-- The generations handed out so far are below the next one still. -/
theorem Using.next_le_after (husing : Using world ledger engine)
    (hprogress : Progress (world.workspace engine) handed complete last)
    (hroom : ledger.handedOut + handed < UInt64.size - 1) : engine.manager.next ≤ last.next := by
  have hnext : last.next.toNat = engine.manager.next.toNat + handed := by
    rw [hprogress.next]
    exact toNat_add_ofNat (husing.room hroom)
  rw [UInt64.le_iff_toNat_le, hnext]
  exact Nat.le_add_right _ _

/-- **Progress of maintenance** makes segments of generations and serial numbers of their own, and leaves
the files of those replaced before as they were. -/
theorem Tended.progress (h : Tended kept past world) (husing : Using world ledger engine)
    (hprogress : Progress (world.workspace engine) handed complete last)
    (hroom : ledger.handedOut + handed < UInt64.size - 1) :
    Tended last.engine.segments past (world.after last) := by
  have hkept : engine.segments = kept := h.opened engine husing.present husing.opened
  have hbelow := h.below engine husing.present husing.opened
  obtain ⟨recorded, hkeeps, hspares⟩ := husing.keeps
  obtain ⟨recorded', hkeeps', -⟩ := husing.keeps_after hprogress hroom
  have hlasts : ∀ handle ∈ past, ∀ half,
      last.snapshot.holding (FileName.segment half handle.segment.generation) =
        world.dir.holding (FileName.segment half handle.segment.generation) := by
    intro handle hmem half
    refine hprogress.spared (husing.room hroom) (hbelow handle hmem) ?_ half
    rintro ⟨segment, hlive, hsame⟩
    obtain ⟨other, hother, rfl⟩ := List.mem_map.1 hlive
    exact absurd hsame (h.apart other (hkept ▸ hother) handle (List.mem_append_left _ hmem))
  refine {
    handles := List.Subset.refl _
    opened := fun engine' hsome _ => Option.some.inj hsome ▸ rfl
    stored := fun handle hmem => hkeeps'.committed.stored _ (List.mem_map_of_mem hmem)
    retired := fun handle hmem => ?_
    apart := fun handle hmem other hother => ?_
    distinct := h.distinct
    serial_ne := fun handle hmem other hother => ?_
    serial_lt := fun handle hmem => ?_
    below := fun engine' hsome _ handle hmem => ?_ }
  · rcases h.retired handle hmem with ⟨hin, hstored⟩ | ⟨hunheld, hgone⟩
    · exact .inl ⟨hin, hstored.of_same (hlasts handle hmem)⟩
    · refine .inr ⟨hunheld, fun half bytes hfile => hgone half bytes ?_⟩
      exact (hlasts handle hmem half).symm.trans hfile
  · -- A segment was there before, or it is of a generation handed out since.
    rcases hprogress.fresh (husing.room hroom) handle.segment (List.mem_map_of_mem hmem) with
      hold | hnew
    · obtain ⟨before, hbefore, hsame⟩ := List.mem_map.1 hold
      exact hsame ▸ h.apart before (hkept ▸ hbefore) other hother
    · have hlt : other.segment.generation < engine.manager.next := by
        rcases List.mem_append.1 hother with hpast | hreplaced
        · exact hbelow other hpast
        · exact UInt64.lt_of_lt_of_le (hspares other hreplaced).1 hkeeps.recorded_le
      exact (UInt64.ne_of_lt (UInt64.lt_of_lt_of_le hlt hnew)).symm
  · rcases hprogress.adopted handle hmem with hold | ⟨hle, -⟩
    · exact h.serial_ne handle (hkept ▸ hold) other hother
    · have hlt := h.serial_lt other (List.mem_append_right _ hother)
      exact (Nat.ne_of_lt (Nat.lt_of_lt_of_le hlt hle)).symm
  · have hopenings : world.memory.openings ≤ last.memory.openings := hprogress.openings
    rcases List.mem_append.1 hmem with hmem | hmem
    · rcases hprogress.adopted handle hmem with hold | ⟨-, hlt⟩
      · refine Nat.lt_of_lt_of_le (h.serial_lt handle ?_) hopenings
        exact List.mem_append_left _ (hkept ▸ hold)
      · exact hlt
    · exact Nat.lt_of_lt_of_le (h.serial_lt handle (List.mem_append_right _ hmem)) hopenings
  · obtain rfl := Option.some.inj hsome
    exact UInt64.lt_of_lt_of_le (hbelow handle hmem) (husing.next_le_after hprogress hroom)

/-- **A compaction that succeeds** replaces the segments that were kept. -/
theorem Tended.compacted (h : Tended kept past world) (husing : Using world ledger engine)
    (hprogress : Progress (world.workspace engine) handed complete last) {replaced : List Handle}
    (hretires : Retires world.isHeld handed (world.workspace engine) replaced last)
    (hroom : ledger.handedOut + handed < UInt64.size - 1) :
    Tended last.engine.segments (past ++ kept)
      { world.after last with replaced := world.replaced ++ replaced } := by
  have hkept : engine.segments = kept := h.opened engine husing.present husing.opened
  have hafter := h.progress husing hprogress hroom
  obtain ⟨recorded, hkeeps, -⟩ := husing.keeps
  obtain ⟨recorded', -, hkeeps', hdelisted⟩ := hretires.delisted hkeeps (husing.room hroom)
  have hsub : replaced ⊆ kept := hkept ▸ hretires.subset
  have hgenerations : ∀ handle ∈ last.engine.segments, ∀ other ∈ kept,
      handle.segment.generation ≠ other.segment.generation := fun handle hmem other hother =>
    (hdelisted other (hkept ▸ hother)).2 _ (List.mem_map_of_mem hmem)
  refine {
    handles := hafter.handles
    opened := hafter.opened
    stored := hafter.stored
    retired := fun handle hmem => ?_
    apart := fun handle hmem other hother => ?_
    distinct := fun handle hmem other hother hsame => ?_
    serial_ne := fun handle hmem other hother => ?_
    serial_lt := fun handle hmem => ?_
    below := fun engine' hsome hopen handle hmem => ?_ }
  · rcases List.mem_append.1 hmem with hmem | hmem
    · exact (hafter.retired handle hmem).imp_left fun ⟨hin, hstored⟩ =>
        ⟨List.mem_append_left _ hin, hstored⟩
    · have hlive : handle ∈ engine.segments := hkept ▸ hmem
      cases hheld : world.isHeld handle with
      | true =>
        refine .inl ⟨List.mem_append_right _ ?_, (h.stored handle hmem).of_same
          (hretires.spared hkeeps (husing.room hroom) handle hlive hheld)⟩
        rw [hretires.returned]
        exact List.mem_filter.2 ⟨hlive, hheld⟩
      | false => exact .inr ⟨hheld, hretires.gone handle hlive hheld⟩
  · simp only [List.mem_append] at hother
    rcases hother with (hpast | hold) | hold | hnew
    · exact hafter.apart handle hmem other (List.mem_append_left _ hpast)
    · exact hgenerations handle hmem other hold
    · exact hafter.apart handle hmem other (List.mem_append_right _ hold)
    · exact hgenerations handle hmem other (hsub hnew)
  · rcases List.mem_append.1 hmem with hmem | hmem
    · rcases List.mem_append.1 hother with hold | hnew
      · exact h.distinct handle hmem other hold hsame
      · exact absurd hsame.symm (h.apart other (hsub hnew) handle (List.mem_append_left _ hmem))
    · rcases List.mem_append.1 hother with hold | hnew
      · exact absurd hsame (h.apart handle hmem other (List.mem_append_right _ hold))
      · exact hkeeps.handle_eq (hkept ▸ hmem) (hkept ▸ hsub hnew) hsame
  · rcases List.mem_append.1 hother with hpast | hold
    · exact hafter.serial_ne handle hmem other hpast
    · rcases hprogress.adopted handle hmem with hbefore | ⟨hle, -⟩
      · exact absurd rfl (hgenerations handle hmem handle (hkept ▸ hbefore))
      · have hlt := h.serial_lt other (List.mem_append_left _ hold)
        exact (Nat.ne_of_lt (Nat.lt_of_lt_of_le hlt hle)).symm
  · rcases List.mem_append.1 hmem with hmem | hmem
    · exact hafter.serial_lt handle (List.mem_append_left _ hmem)
    · rcases List.mem_append.1 hmem with hpast | hold
      · exact hafter.serial_lt handle (List.mem_append_right _ hpast)
      · have hlt := h.serial_lt handle (List.mem_append_left _ hold)
        exact Nat.lt_of_lt_of_le hlt hprogress.openings
  · rcases List.mem_append.1 hmem with hpast | hold
    · exact hafter.below engine' hsome hopen handle hpast
    · obtain rfl := Option.some.inj hsome
      have hlt : handle.segment.generation < engine.manager.next :=
        hkeeps.generation_lt (List.mem_map_of_mem (hkept ▸ hold))
      exact UInt64.lt_of_lt_of_le hlt (husing.next_le_after hprogress hroom)

end Progress

/-- What an event makes of the segments: those that it does not replace are kept. -/
def Tends (kept past : List Handle) (world : World) (event : Event) : Prop :=
  ∃ kept', Tended kept' (past ++ world.replaces event) (world.act event).2 ∧
    kept ⊆ kept' ++ world.replaces event

theorem Tended.tends (h : Tended kept past (world.act event).2) (hne : event ≠ .compact) :
    Tends kept past world event := by
  refine ⟨kept, ?_, List.subset_append_left _ _⟩
  rw [replaces_of_ne hne, List.append_nil]
  exact h

theorem Tended.growth (h : Tended kept past world) (husing : Using world ledger engine) {handed : Nat}
    {complete : Prop} {last : Workspace} (hgrowth : Growth (world.workspace engine) handed complete last)
    (hroom : ledger.handedOut + handed < UInt64.size - 1) :
    Tended last.engine.segments past (world.after last) ∧ kept ⊆ last.engine.segments := by
  refine ⟨h.progress husing hgrowth.toProgress hroom, ?_⟩
  rw [← h.opened engine husing.present husing.opened]
  exact hgrowth.older.subset

theorem Tended.flush (h : Tended kept past world) (husing : Using world ledger engine)
    (hroom : (ledger.note world .flush).handedOut < UInt64.size - 1) :
    Tends kept past world .flush := by
  have hruns : Runs _ (world.workspace engine) _ _ :=
    Maintenance.runs_flush husing.opened husing.unshared husing.sound
  obtain ⟨hgrowth, -⟩ := hruns.apply (Disk.plain_ofSnapshot world.dir)
  rw [note_handedOut] at hroom
  rw [husing.handsOut_flush (Nat.lt_of_le_of_lt (Nat.le_add_right _ _) hroom)] at hroom
  obtain ⟨hafter, hsub⟩ := h.growth husing hgrowth hroom
  refine ⟨_, ?_, List.Subset.trans hsub (List.subset_append_left _ _)⟩
  rw [replaces_of_ne (by simp), List.append_nil, act, maintain_eq _ husing.present]
  exact hafter

theorem Tended.compact (h : Tended kept past world) (husing : Using world ledger engine)
    (hroom : (ledger.note world .compact).handedOut < UInt64.size - 1) :
    Tends kept past world .compact := by
  have hruns : Runs _ (world.workspace engine) _ _ :=
    Maintenance.runs_compact world.isHeld husing.opened husing.unshared husing.sound
  obtain ⟨hpost, -⟩ := hruns.apply (Disk.plain_ofSnapshot world.dir)
  rw [note_handedOut] at hroom
  rw [husing.handsOut_compact (Nat.lt_of_le_of_lt (Nat.le_add_right _ _) hroom)] at hroom
  have hact : world.act .compact =
      (((Maintenance.compact world.isHeld).run.run (world.workspace engine)).1.mapError
        StepFault.store |>.map fun _ => .done,
      { world.after ((Maintenance.compact world.isHeld).run.run (world.workspace engine)).2 with
        replaced := world.replaced ++ (((Maintenance.compact world.isHeld).run.run
          (world.workspace engine)).1.mapError StepFault.store).toOption.getD [] }) := by
    rw [act, maintain_eq _ husing.present]
    rfl
  cases hresult : ((Maintenance.compact world.isHeld).run.run (world.workspace engine)).1 with
  | ok replaced =>
    rw [hresult] at hact hpost
    obtain ⟨hprogress, hretires⟩ := hpost
    have hreplaces : world.replaces .compact = kept := by
      rw [replaces_of_ok (congrArg Prod.fst hact), World.handles, husing.present]
      exact h.opened engine husing.present husing.opened
    rw [Tends, hreplaces, hact]
    exact ⟨_, h.compacted husing hprogress hretires hroom, List.subset_append_right _ _⟩
  | error error =>
    rw [hresult] at hact hpost
    obtain ⟨hafter, hsub⟩ := h.growth husing hpost hroom
    have hnone : (Except.mapError StepFault.store (.error error : Except Error (List Handle))).toOption.getD
        [] = [] := rfl
    rw [Tends, replaces_of_error (congrArg Prod.fst hact), List.append_nil, hact, hnone, List.append_nil]
    exact ⟨_, hafter, List.Subset.trans hsub (List.subset_append_left _ _)⟩

theorem Tended.close (h : Tended kept past world) (husing : Using world ledger engine)
    (hroom : (ledger.note world .close).handedOut < UInt64.size - 1) :
    Tends kept past world .close := by
  have hruns : Runs _ (world.workspace engine) _ _ :=
    Maintenance.runs_close husing.opened husing.unshared husing.sound
  obtain ⟨hpost, -⟩ := hruns.apply (Disk.plain_ofSnapshot world.dir)
  rw [note_handedOut] at hroom
  rw [husing.handsOut_close (Nat.lt_of_le_of_lt (Nat.le_add_right _ _) hroom)] at hroom
  have hact : (world.act .close).2 =
      world.after (Maintenance.close.run.run (world.workspace engine)).2 := by
    rw [act, maintain_eq _ husing.present]
  cases hresult : (Maintenance.close.run.run (world.workspace engine)).1 with
  | ok value =>
    rw [hresult] at hpost
    obtain ⟨last, hgrowth, hlast⟩ := hpost
    obtain ⟨hafter, hsub⟩ := h.growth husing hgrowth hroom
    refine ⟨last.engine.segments, ?_, List.Subset.trans hsub (List.subset_append_left _ _)⟩
    -- The segments that the engine lets go of stay where they are.
    rw [replaces_of_ne (by simp), List.append_nil, hact, hlast]
    refine hafter.of_same (.refl hgrowth.unshared) rfl rfl (.inr fun engine' hsome => ?_) fun _ _ => id
    obtain rfl := Option.some.inj hsome
    exact ⟨rfl, rfl⟩
  | error error =>
    rw [hresult] at hpost
    obtain ⟨hafter, hsub⟩ := h.growth husing hpost hroom
    refine ⟨_, ?_, List.Subset.trans hsub (List.subset_append_left _ _)⟩
    rw [replaces_of_ne (by simp), List.append_nil, hact]
    exact hafter

theorem Tended.maintenance (h : Tended kept past world) (hconsistent : Consistent world ledger)
    (hpersists : event.persists = true)
    (hroom : (ledger.note world event).handedOut < UInt64.size - 1) : Tends kept past world event := by
  rcases hconsistent with ⟨engine, husing⟩ | hidle
  · cases event with
    | flush => exact h.flush husing hroom
    | compact => exact h.compact husing hroom
    | close => exact h.close husing hroom
    | _ => cases hpersists
  · -- A closed engine has no segments left to replace.
    have hnone : world.replaces event = [] := by
      unfold replaces
      split
      · cases hengine : world.engine with
        | none =>
          rw [World.handles, hengine]
          rfl
        | some engine =>
          rw [World.handles, hengine]
          exact List.map_eq_nil_iff.1 (hidle.closed engine hengine).2.2.1
      · rfl
    refine ⟨kept, ?_, List.subset_append_left _ _⟩
    rw [hnone, List.append_nil, (hidle.act_eq hpersists).1]
    exact h

/-! ## Any event -/

/-- Events that change neither the files nor the segments. -/
theorem Tended.act_same (h : Tended kept past world) {after : World} (hact : (world.act event).2 = after)
    (hsame : SameFiles world.dir after.dir) (hreplaced : after.replaced = world.replaced)
    (hopenings : after.memory.openings = world.memory.openings)
    (hengine : after.engine = world.engine ∨ after.engine = none) (hne : event ≠ .compact) :
    Tends kept past world event := by
  subst hact
  refine (h.of_same hsame hreplaced hopenings (hengine.imp_right fun hnone engine hsome => ?_)
    fun handle hmem => h.isHeld_act hmem).tends hne
  rw [hnone] at hsome
  cases hsome

theorem Tended.change (h : Tended kept past world) {changed : Except OsError Directory}
    (hact : (world.act event).2 = (world.change changed).2) (hu : world.dir.Unshared)
    (hsame : ∀ names, changed = .ok names → SameFiles world.dir { world.dir with names })
    (hne : event ≠ .compact) : Tends kept past world event := by
  cases hcase : changed with
  | error cause =>
    rw [hcase] at hact
    exact h.act_same hact (.refl hu) rfl rfl (.inl rfl) hne
  | ok names =>
    rw [hcase] at hact
    exact h.act_same hact (hsame names hcase) rfl rfl (.inl rfl) hne

theorem Tended.act (h : Tended kept past world) (hconsistent : Consistent world ledger)
    (hload : ∀ config, event ≠ .load config)
    (hroom : (ledger.note world event).handedOut < UInt64.size - 1) : Tends kept past world event := by
  have hu : world.dir.Unshared := hconsistent.unshared
  have hreading : event.isReading = true → Tends kept past world event := fun hread => by
    obtain ⟨cursors, hact⟩ := act_reading world hread
    refine h.act_same hact (.refl hu) rfl rfl (.inl rfl) fun hcompact => ?_
    rw [hcompact] at hread
    cases hread
  cases event with
  | load config => exact absurd rfl (hload config)
  | upsert entry =>
    rcases world.act_upsert entry with ⟨fault, hact⟩ | ⟨engine, -, -, hact⟩
    · exact h.act_same (congrArg Prod.snd hact) (.refl hu) rfl rfl (.inl rfl) (by simp)
    · exact h.act_same (congrArg Prod.snd hact) (.refl hu) rfl rfl (.inl rfl) (by simp)
  | flush => exact h.maintenance hconsistent rfl hroom
  | compact => exact h.maintenance hconsistent rfl hroom
  | close => exact h.maintenance hconsistent rfl hroom
  | drop =>
    -- An engine that is dropped closes the directory first, or tries to.
    have hclose : (ledger.note world .close).handedOut < UInt64.size - 1 := by
      rw [note_handedOut] at hroom ⊢
      exact hroom
    have htends : Tends kept past world .close := h.maintenance hconsistent rfl hclose
    obtain ⟨kept', htended, hsub⟩ := htends
    rw [replaces_of_ne (by simp), List.append_nil] at htended hsub
    refine ⟨kept', ?_, List.Subset.trans hsub (List.subset_append_left _ _)⟩
    rw [replaces_of_ne (by simp), List.append_nil]
    exact htended.of_same (.refl (hconsistent.act .close hclose).unshared) rfl rfl
      (.inr fun _ hsome => (nomatch hsome)) fun _ _ => id
  | crash => exact h.act_same rfl (.refl hu) rfl rfl (.inr rfl) (by simp)
  | block name => exact h.change rfl hu (fun names hnames => .makeFolder hu hnames) (by simp)
  | unblock name => exact h.change rfl hu (fun names hnames => .removeFolder hu hnames) (by simp)
  | _ => exact hreading rfl

/-- **Every event** of the engine leaves the segments tended. -/
theorem Tended.step (h : Tended kept past world) (hconsistent : Consistent world ledger)
    (hload : ∀ config, event ≠ .load config)
    (hroom : (ledger.note world event).handedOut < UInt64.size - 1) :
    ∃ kept', Tended kept' (past ++ world.replaces event) (world.step event).2 ∧
      kept ⊆ kept' ++ world.replaces event := by
  obtain ⟨kept', htended, hsub⟩ := h.act hconsistent hload hroom
  exact ⟨kept', htended.releaseFiles (hconsistent.act event hroom).unshared, hsub⟩

theorem handedOut_le_noteAll (ledger : Ledger) (world : World) (events : List Event) :
    ledger.handedOut ≤ (ledger.noteAll world events).handedOut := by
  induction events generalizing ledger world with
  | nil => exact Nat.le_refl _
  | cons event rest ih =>
    refine Nat.le_trans ?_ (ih _ _)
    rw [note_handedOut]
    exact Nat.le_add_right _ _

/-- **So do any events.** -/
theorem Tended.run (h : Tended kept past world) (hconsistent : Consistent world ledger)
    {events : List Event} (hload : ∀ event ∈ events, ∀ config, event ≠ .load config)
    (hroom : (ledger.noteAll world events).handedOut < UInt64.size - 1) :
    ∃ kept', Tended kept' (past ++ world.retired events) (world.run events).2 ∧
      kept ⊆ kept' ++ world.retired events := by
  induction events generalizing world ledger kept past with
  | nil =>
    refine ⟨kept, ?_, List.subset_append_left _ _⟩
    rw [World.retired, List.append_nil]
    exact h
  | cons event rest ih =>
    have hfirst : (ledger.note world event).handedOut < UInt64.size - 1 :=
      Nat.lt_of_le_of_lt (handedOut_le_noteAll _ _ rest) hroom
    obtain ⟨middle, hmiddle, hsub⟩ := h.step hconsistent (hload event (by simp)) hfirst
    obtain ⟨kept', hrest, hsub'⟩ := ih hmiddle (hconsistent.step event hfirst)
      (fun event hmem => hload event (by simp [hmem])) hroom
    rw [List.append_assoc] at hrest
    refine ⟨kept', hrest, fun handle hmem => ?_⟩
    rw [World.retired]
    have hmem := hsub hmem
    simp only [List.mem_append] at hmem ⊢
    rcases hmem with hmem | hmem
    · have hmem := hsub' hmem
      simp only [List.mem_append] at hmem
      rcases hmem with hmem | hmem
      · exact .inl hmem
      · exact .inr (.inr hmem)
    · exact .inr (.inl hmem)

/-! ## From an opening on -/

/-- The segments that an opening finds get serial numbers that none had before. -/
theorem serial_lt_of_load {config : Config} {answer : Answer} {opened : World}
    (h : world.load config = (.ok answer, opened)) :
    ∀ handle ∈ opened.handles, handle.serial < opened.memory.openings := by
  rw [World.load] at h
  split at h
  · cases h
  · next manager segments disk hrun =>
    cases h
    exact fun handle hmem => (Memory.numbers_adoptAll world.memory config.dataDir segments handle hmem).2

/-- **A directory just opened** is tended. -/
theorem tended_load (h : Consistent world ledger) {config : Config} {answer : Answer} {opened : World}
    (hload : world.step (.load config) = (.ok answer, opened))
    (hroom : (ledger.note world (.load config)).handedOut < UInt64.size - 1) :
    Tended opened.handles [] opened := by
  rw [note_handedOut] at hroom
  rw [step_eq, act] at hload
  rcases (h.discard hroom).load rfl hroom config with
    ⟨answer', made, segments, engine, hmade, -, -, husing⟩ | ⟨fault, left, hmade, -⟩
  · rw [hmade] at hload
    obtain rfl := (Prod.mk.inj hload).2
    have hhandles : made.handles = engine.segments := by
      rw [World.handles, husing.present]
      rfl
    obtain ⟨recorded, hkept, hspares⟩ := husing.kept
    have htended : Tended made.handles [] made := {
      handles := List.Subset.refl _
      opened := fun engine' hsome _ => by rw [World.handles, hsome]; rfl
      stored := fun handle hmem =>
        hkept.committed.stored _ (List.mem_map_of_mem (hhandles ▸ hmem))
      retired := fun handle hmem => absurd hmem List.not_mem_nil
      apart := fun handle hmem other hother =>
        (hspares other hother).2 _ (List.mem_map_of_mem (hhandles ▸ hmem))
      distinct := fun handle hmem => absurd hmem List.not_mem_nil
      serial_ne := fun handle _ other hother => absurd hother List.not_mem_nil
      serial_lt := fun handle hmem => by
        rw [List.append_nil] at hmem
        exact serial_lt_of_load hmade handle hmem
      below := fun engine' _ _ handle hmem => absurd hmem List.not_mem_nil }
    exact htended.releaseFiles husing.unshared
  · rw [hmade] at hload
    cases (Prod.mk.inj hload).1

theorem retired_append (world : World) (events more : List Event) :
    world.retired (events ++ more) = world.retired events ++ (world.run events).2.retired more := by
  induction events generalizing world with
  | nil => rfl
  | cons event rest ih =>
    rw [List.cons_append, World.retired, World.retired, ih, List.append_assoc]
    rfl

/-- The segments that an engine has when a compaction succeeds are replaced by it. -/
theorem mem_retired {before events : List Event} {handle : Handle} {answer : Answer}
    (h : before ++ [.compact] <+: events) (hanswer : ((world.run before).2.step .compact).1 = .ok answer)
    (hmem : handle ∈ (world.run before).2.handles) : handle ∈ world.retired events := by
  obtain ⟨rest, rfl⟩ := h
  rw [retired_append, retired_append, World.retired, World.retired]
  refine List.mem_append_left _ (List.mem_append_right _ (List.mem_append_left _ ?_))
  exact replaces_of_ok hanswer ▸ hmem

/-- **The files of a segment** in a directory that one engine uses, from the moment on at which the engine
has the segment: they are as they were then as long as no compaction has replaced the segment, or a cursor
holds it. After that there are none. -/
theorem Tended.files_last (h : Tended kept past world) (hconsistent : Consistent world ledger)
    {events : List Event} (hload : ∀ event ∈ events, ∀ config, event ≠ .load config)
    (hroom : (ledger.noteAll world events).handedOut < UInt64.size - 1)
    (hheld : ∀ handle ∈ (world.run events).2.replaced, (world.run events).2.isHeld handle = true)
    {handle : Handle} (hmem : handle ∈ world.handles) (half : Half) : ∃ bytes,
      world.dir.holding (FileName.segment half handle.segment.generation) = .file bytes ∧
      (handle ∉ past ++ world.retired events ∨ (world.run events).2.isHeld handle = true →
        (world.run events).2.dir.holding (FileName.segment half handle.segment.generation) =
          .file bytes) ∧
      (handle ∈ past ++ world.retired events → (world.run events).2.isHeld handle = false →
        ∀ other, (world.run events).2.dir.holding
          (FileName.segment half handle.segment.generation) ≠ .file other) := by
  obtain ⟨kept', hafter, hsub⟩ := h.run hconsistent hload hroom
  have hstored : Stored world.dir handle.segment := h.stored handle (h.handles hmem)
  have hstored' : handle ∉ past ++ world.retired events ∨ (world.run events).2.isHeld handle = true →
      Stored (world.run events).2.dir handle.segment := by
    rintro hlasts
    by_cases hpast : handle ∈ past ++ world.retired events
    · rcases hafter.retired handle hpast with ⟨-, hstored'⟩ | ⟨hunheld, -⟩
      · exact hstored'
      · exact absurd (hlasts.resolve_left fun hnot => hnot hpast) (by simp [hunheld])
    · refine hafter.stored handle ((List.mem_append.1 (hsub (h.handles hmem))).resolve_right ?_)
      exact fun hretired => hpast (List.mem_append_right _ hretired)
  -- Opened as the same segment at both ends, the files are the same.
  refine ⟨_, hstored.holding_eq half, fun hlasts => (hstored' hlasts).holding_eq half,
    fun hpast hunheld => ?_⟩
  rcases hafter.retired handle hpast with ⟨hin, -⟩ | ⟨-, hgone⟩
  · exact absurd (hheld handle hin) (by simp [hunheld])
  · exact hgone half

/-- **How long the files of replaced segments last.** A directory that was empty at the start and has only
been used by engines of this kind is opened, and is not opened again in the course of some events. Then of
each segment that the engine had at some moment both files are as they were at that moment, if no
compaction that succeeded has replaced the segment since, or a cursor holds it; if one has and none does,
neither file is there.

A cursor that was made on the way holds a segment as long as there are entries of it in the range that the
cursor has not passed: these, and no others, are what it has of the segment, whatever became of the files.
Read to its end, it yields every live one of them that no newer source has a version of. -/
theorem replaced_files_last {opened : World} {config : Config} {answer : Answer}
    (h : Reached world ledger) (hopen : world.step (.load config) = (.ok answer, opened))
    {events : List Event} (hload : ∀ event ∈ events, ∀ config, event ≠ .load config)
    (hroom : ((ledger.note world (.load config)).noteAll opened events).handedOut < UInt64.size - 1) :
    (∀ early, early <+: events → ∀ handle ∈ (opened.run early).2.handles, ∀ half, ∃ bytes,
      (opened.run early).2.dir.holding (FileName.segment half handle.segment.generation) = .file bytes ∧
      (handle ∉ opened.retired events ∨ (opened.run events).2.isHeld handle = true →
        (opened.run events).2.dir.holding (FileName.segment half handle.segment.generation) =
          .file bytes) ∧
      (handle ∈ opened.retired events → (opened.run events).2.isHeld handle = false →
        ∀ other, (opened.run events).2.dir.holding
          (FileName.segment half handle.segment.generation) ≠ .file other)) ∧
    ∀ before name bounds late, before ++ .cursor name bounds :: late = events →
      (∀ event ∈ late, event.keeps name = true) → ∀ handle ∈ (opened.run before).2.handles,
      ∃ merge, (opened.run events).2.cursors.get? name = some merge ∧
        Draws bounds ((opened.run (before ++ [.cursor name bounds])).2.given name late) handle merge ∧
        ∀ newer head older, merge.heads = newer ++ head :: older → handle ∈ head.source.handles →
          ∀ entry ∈ Merge.heldBy (Leaf.reader (opened.run events).2.memory) head,
            entry.isTombstone = false →
            (∀ other ∈ newer, ∀ version ∈ Merge.heldBy (Leaf.reader (opened.run events).2.memory) other,
              version.key ≠ entry.key) →
            entry ∈ ((Merge.reader (Leaf.reader (opened.run events).2.memory)).drain merge).1 := by
  have hreached : Reached opened (ledger.note world (.load config)) := by
    have hstep := h.step (.load config)
    rwa [hopen] at hstep
  have hopening := Nat.lt_of_le_of_lt (handedOut_le_noteAll _ opened events) hroom
  have hstart : (ledger.handedOut : Nat) < UInt64.size - 1 := by
    rw [note_handedOut] at hopening
    exact Nat.lt_of_le_of_lt (Nat.le_add_right _ _) hopening
  have htended : Tended opened.handles [] opened := tended_load (h.consistent hstart) hopen hopening
  refine ⟨?_, ?_⟩
  · rintro early ⟨late, rfl⟩ handle hmem half
    rw [Ledger.noteAll_append] at hroom
    have hconsistent := hreached.consistent hopening
    obtain ⟨kept, hearly, -⟩ := htended.run hconsistent
      (fun event hevent => hload event (List.mem_append_left _ hevent))
      (Nat.lt_of_le_of_lt (handedOut_le_noteAll _ _ late) hroom)
    have hheld := (hreached.run (early ++ late)).held
    rw [run_append] at hheld ⊢
    rw [retired_append]
    exact hearly.files_last
      ((hreached.run early).consistent (Nat.lt_of_le_of_lt (handedOut_le_noteAll _ _ late) hroom))
      (fun event hevent => hload event (List.mem_append_right _ hevent)) hroom hheld hmem half
  · rintro before name bounds late rfl hkeeps handle hmem
    rw [Ledger.noteAll_append] at hroom
    have hbefore := (hreached.run before).consistent
      (Nat.lt_of_le_of_lt (handedOut_le_noteAll _ _ (.cursor name bounds :: late)) hroom)
    -- An engine that has segments is open.
    obtain ⟨engine, husing⟩ : ∃ engine, Using (opened.run before).2 _ engine := by
      refine hbefore.resolve_right fun hidle => ?_
      cases hengine : (opened.run before).2.engine with
      | none =>
        rw [World.handles, hengine] at hmem
        cases hmem
      | some engine =>
        rw [World.handles, hengine] at hmem
        have hnone : engine.segments = [] := List.map_eq_nil_iff.1 (hidle.closed engine hengine).2.2.1
        exact absurd (show handle ∈ engine.segments from hmem) (hnone ▸ List.not_mem_nil)
    have hsegment : handle ∈ engine.segments := by
      rw [World.handles, husing.present] at hmem
      exact hmem
    have hmade : (opened.run (before ++ [.cursor name bounds])).2 =
        ((opened.run before).2.step (.cursor name bounds)).2 := run_append _ _ _
    have hnow : (opened.run (before ++ .cursor name bounds :: late)).2 =
        (((opened.run before).2.step (.cursor name bounds)).2.run late).2 := run_append _ _ _
    obtain ⟨count, made, hcursor, hfaithful⟩ :=
      faithful_cursor husing.present husing.opened husing.sound name bounds
    obtain rfl : ((opened.run before).2.step (.cursor name bounds)).2 = made :=
      congrArg Prod.snd hcursor
    obtain ⟨merge, hmerge, hfollows, hdraws⟩ :=
      (drawing_cursor husing.present husing.opened husing.sound hsegment name bounds).run hfaithful hkeeps
    rw [hmade, hnow]
    exact ⟨merge, hmerge, hdraws, fun newer head older hheads hover entry hentry hlive hnewest =>
      hfollows.yields hheads hentry hlive hnewest⟩

/-- A directory opened for the first time. -/
def begun : World := (World.empty.step (.load {})).2

/-- Two compactions, the first of which replaces a segment that a cursor holds. -/
def overlapping : List Event :=
  [.upsert (.put [1] [7]), .flush, .cursor "c" .all, .upsert (.put [2] [8]), .compact,
    .upsert (.put [3] [9]), .compact]

/-- The segment that the cursor holds has its files still, the one that no cursor holds has none. -/
theorem replaced_files_last_overlapping : ∃ answer,
    World.empty.step (.load {}) = (.ok answer, begun) ∧
    (begun.run overlapping).2.dir.names.fileNames = ["MANIFEST", "segment_000003.index",
      "segment_000003.data", "segment_000001.index", "segment_000001.data"] ∧
    (∀ handle ∈ (begun.run (overlapping.take 2)).2.handles, ∀ half, ∃ bytes,
      (begun.run (overlapping.take 2)).2.dir.holding
        (FileName.segment half handle.segment.generation) = .file bytes ∧
      (begun.run overlapping).2.dir.holding
        (FileName.segment half handle.segment.generation) = .file bytes) ∧
    (∀ handle ∈ (begun.run (overlapping.take 6)).2.handles, ∀ half other,
      (begun.run overlapping).2.dir.holding
        (FileName.segment half handle.segment.generation) ≠ .file other) ∧
    ∃ merge, (begun.run overlapping).2.cursors.get? "c" = some merge ∧
      ∀ handle ∈ (begun.run (overlapping.take 2)).2.handles, Draws .all [] handle merge := by
  obtain ⟨answer, hanswer⟩ :=
    exists_of_isOk (by decide +kernel : (World.empty.step (.load {})).1.isOk = true)
  have hopen : World.empty.step (.load {}) = (.ok answer, begun) := Prod.ext hanswer rfl
  have hroom : ((Ledger.empty.note .empty (.load {})).noteAll begun overlapping).handedOut <
      UInt64.size - 1 := by
    decide +kernel
  obtain ⟨hheld, hunheld, hcompact, hfiles, hgiven, hcursor⟩ :
      ((begun.run (overlapping.take 2)).2.handles.all (begun.run overlapping).2.isHeld = true) ∧
      ((begun.run (overlapping.take 6)).2.handles.all fun handle =>
        !(begun.run overlapping).2.isHeld handle) = true ∧
      ((begun.run (overlapping.take 6)).2.step .compact).1.isOk = true ∧
      (begun.run overlapping).2.dir.names.fileNames = ["MANIFEST", "segment_000003.index",
        "segment_000003.data", "segment_000001.index", "segment_000001.data"] ∧
      (begun.run (overlapping.take 3)).2.given "c" (overlapping.drop 3) = [] ∧
      ((begun.run overlapping).2.cursors.get? "c").isSome = true := by
    decide +kernel
  obtain ⟨answer', hcompact⟩ := exists_of_isOk hcompact
  have hload : ∀ event ∈ overlapping, ∀ config, event ≠ .load config := by
    simp [overlapping]
  obtain ⟨hlasts, hdraws⟩ := replaced_files_last .start hopen hload hroom
  refine ⟨answer, hopen, hfiles, fun handle hmem half => ?_, fun handle hmem half => ?_, ?_⟩
  · obtain ⟨bytes, hfile, hsame, -⟩ := hlasts (overlapping.take 2) (List.take_prefix _ _) handle hmem half
    exact ⟨bytes, hfile, hsame (.inr (List.all_eq_true.1 hheld handle hmem))⟩
  · obtain ⟨bytes, -, -, hgone⟩ := hlasts (overlapping.take 6) (List.take_prefix _ _) handle hmem half
    refine hgone (mem_retired ⟨[], rfl⟩ hcompact hmem) ?_
    simpa using List.all_eq_true.1 hunheld handle hmem
  · obtain ⟨merge, hmerge⟩ := Option.isSome_iff_exists.1 hcursor
    refine ⟨merge, hmerge, fun handle hmem => ?_⟩
    obtain ⟨merge', hmerge', hdraws', -⟩ :=
      hdraws (overlapping.take 2) "c" .all (overlapping.drop 3) rfl (by decide) handle hmem
    obtain rfl := Option.some.inj (hmerge.symm.trans hmerge')
    exact hgiven ▸ hdraws'

end World

end LsmTree
