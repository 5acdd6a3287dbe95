import LsmTree.Proofs.Layers
import LsmTree.Proofs.Recovery
import LsmTree.Proofs.World

/-!
# An engine as a map

From the opening of a directory until a closing succeeds, an engine answers each key with the last entry
written for it, whatever else it is asked to do meanwhile and whether that succeeds or not. From then on it
is closed.

* **`World.Serving`**, **`World.Ended`** — the worlds before and after that closing;
* **`World.step_serving`**, **`World.step_ended`** — what each event makes of them;
* **`World.lookup_answers_last_write`** — what a whole run does.
-/

namespace LsmTree

open Snapshot (Removed)
open Maintenance (Workspace Progress Growth)

/-- The events of one engine between its opening and the loss of it. -/
def Event.isUse : Event → Bool
  | .load _ | .drop | .crash => false
  | _ => true

/-- The events that an engine takes only while it is open. -/
def Event.needsOpen : Event → Bool
  | .lookup _ | .range _ | .cursor _ _ | .upsert _ | .flush | .compact => true
  | _ => false

/-- What an event writes. -/
def Event.written : Event → List Entry
  | .upsert entry => [entry]
  | _ => []

theorem exists_of_isOk {ε α : Type} {result : Except ε α} (h : result.isOk = true) :
    ∃ value, result = .ok value := by
  cases result with
  | error error => cases h
  | ok value => exact ⟨value, rfl⟩

namespace World

variable {world : World} {base : Content} {writes : List Entry} {engine : Engine}

/-! ## Files taken away afterwards -/

@[simp] theorem releaseFiles_engine : world.releaseFiles.engine = world.engine := rfl

@[simp] theorem releaseFiles_memory : world.releaseFiles.memory = world.memory := rfl

theorem replaced_releaseFiles : world.releaseFiles.replaced = world.replaced.filter world.isHeld := by
  show (world.replaced.partition world.isHeld).1 = _
  rw [List.partition_eq_filter_filter]

/-- The files of the replaced segments that no cursor holds are taken away. -/
theorem releaseFiles_unheld (hu : world.dir.Unshared) :
    Removed (filesOf ((world.replaced.filter fun handle => ¬ world.isHeld handle).map Handle.segment))
      world.dir world.releaseFiles.dir := by
  have hunheld : (world.replaced.partition world.isHeld).2 =
      world.replaced.filter fun handle => ¬ world.isHeld handle := by
    rw [List.partition_eq_filter_filter]
    simp
    rfl
  have hu' : (Disk.ofSnapshot world.dir).snapshot.Unshared := hu
  rw [Maintenance.filesOf_handles, ← hunheld]
  exact ((Manager.runs_removeAll _ hu').apply (Disk.plain_ofSnapshot world.dir)).1

/-- Only files of replaced segments are taken away. -/
theorem releaseFiles_removed (hu : world.dir.Unshared) : ∃ released : List Handle,
    released ⊆ world.replaced ∧ world.releaseFiles.replaced ⊆ world.replaced ∧
      Removed ((released.map fun handle => handle.segment.generation).flatMap FileName.halves)
        world.dir world.releaseFiles.dir := by
  refine ⟨_, List.filter_sublist.subset, ?_, Maintenance.filesOf_handles _ ▸ releaseFiles_unheld hu⟩
  rw [replaced_releaseFiles]
  exact List.filter_sublist.subset

theorem releaseFiles_unshared (hu : world.dir.Unshared) : world.releaseFiles.dir.Unshared := by
  obtain ⟨released, -, -, hremoved⟩ := releaseFiles_removed hu
  exact hremoved.unshared

theorem step_eq (event : Event) :
    world.step event = ((world.act event).1, (world.act event).2.releaseFiles) := rfl

theorem step_of_isOk {event : Event} (h : (world.step event).1.isOk = true) :
    ∃ answer after, world.step event = (.ok answer, after) := by
  obtain ⟨answer, hanswer⟩ := exists_of_isOk h
  exact ⟨answer, _, Prod.ext hanswer rfl⟩

/-! ## Before and after the closing -/

/-- The engine is open and has what the writes make of `base`. -/
structure Serving (base : Content) (writes : List Entry) (world : World) : Prop where
  unshared : world.dir.Unshared
  serves : ∃ engine settled, world.engine = some engine ∧ engine.closed = false ∧
    Lays base writes settled world.memory engine

/-- The engine is closed. -/
structure Ended (world : World) : Prop where
  unshared : world.dir.Unshared
  closed : ∃ engine, world.engine = some engine ∧ engine.closed = true

theorem Serving.releaseFiles (h : Serving base writes world) : Serving base writes world.releaseFiles :=
  ⟨releaseFiles_unshared h.unshared, h.serves⟩

theorem Ended.releaseFiles (h : Ended world) : Ended world.releaseFiles :=
  ⟨releaseFiles_unshared h.unshared, h.closed⟩

/-- **A lookup answers** with the last write of the key, or with what was there before. -/
theorem Serving.lookup (h : Serving base writes world) (key : Bytes) :
    (world.step (.lookup key)).1 = .ok (.value (Content.after base writes key)) := by
  obtain ⟨engine, settled, hengine, hopen, hlays⟩ := h.serves
  show (world.ask fun engine => Answer.value <$> engine.get world.memory key) = _
  rw [ask, hengine]
  dsimp only
  rw [Engine.get_eq_content hopen, hlays.content_eq]
  rfl

theorem shown_eq_content (hengine : world.engine = some engine) (hopen : engine.closed = false) :
    world.shown = engine.content world.memory := by
  funext key
  rw [shown, ask, hengine]
  dsimp only
  rw [Engine.get_eq_content hopen]
  rfl

theorem Serving.shown (h : Serving base writes world) : world.shown = Content.after base writes := by
  obtain ⟨engine, settled, hengine, hopen, hlays⟩ := h.serves
  rw [shown_eq_content hengine hopen, hlays.content_eq]

theorem maintain_eq {α : Type} (step : Maintenance.MaintenanceM α) (hengine : world.engine = some engine) :
    world.maintain step = ((step.run.run (world.workspace engine)).1.mapError .store,
      world.after (step.run.run (world.workspace engine)).2) := by
  rw [maintain, hengine]
  rfl

theorem Serving.after {handed settled : Nat} {complete : Prop} {last : Workspace}
    (hopen : engine.closed = false) (hlays : Lays base writes settled world.memory engine)
    (hprogress : Progress (world.workspace engine) handed complete last) :
    Serving base writes (world.after last) := by
  obtain ⟨settled', -, hlays', -⟩ := hprogress.lays hlays
  exact ⟨hprogress.unshared, last.engine, settled', rfl, hprogress.closed.trans hopen, hlays'⟩

theorem Serving.change {changed : Except OsError Directory} (h : Serving base writes world)
    (hu : ∀ names, changed = .ok names → Snapshot.Unshared { world.dir with names }) :
    Serving base writes (world.change changed).2 := by
  cases hcase : changed with
  | error cause => exact h
  | ok names => exact ⟨hu names hcase, h.serves⟩

theorem Ended.change {changed : Except OsError Directory} (h : Ended world)
    (hu : ∀ names, changed = .ok names → Snapshot.Unshared { world.dir with names }) :
    Ended (world.change changed).2 := by
  cases hcase : changed with
  | error cause => exact h
  | ok names => exact ⟨hu names hcase, h.closed⟩

/-- **A closing** either succeeds and ends the service, or fails and leaves it as it was. -/
theorem Serving.close (h : Serving base writes world) :
    ((world.act .close).1 = .ok .done ∧ Ended (world.act .close).2) ∨
      ((∀ answer, (world.act .close).1 ≠ .ok answer) ∧ Serving base writes (world.act .close).2) := by
  obtain ⟨engine, settled, hengine, hopen, hlays⟩ := h.serves
  have hruns : Runs _ (world.workspace engine) _ _ := Maintenance.runs_close hopen h.unshared hlays.sound
  obtain ⟨hpost, -⟩ := hruns.apply (Disk.plain_ofSnapshot world.dir)
  rw [act, maintain_eq _ hengine]
  cases hresult : (Maintenance.close.run.run (world.workspace engine)).1 with
  | ok _ =>
    rw [hresult] at hpost
    obtain ⟨last, hprogress, hlast⟩ := hpost
    refine .inl ⟨rfl, ?_⟩
    dsimp only
    rw [hlast]
    exact ⟨hprogress.unshared, _, rfl, rfl⟩
  | error error =>
    rw [hresult] at hpost
    exact .inr ⟨fun answer hanswer => (nomatch hanswer), .after hopen hlays (Growth.toProgress hpost)⟩

/-- **A flush** leaves the service as it was, whether it succeeds or fails. -/
theorem Serving.flush (h : Serving base writes world) :
    Serving base writes (world.act .flush).2 := by
  obtain ⟨engine, settled, hengine, hopen, hlays⟩ := h.serves
  have hruns : Runs _ (world.workspace engine) _ _ := Maintenance.runs_flush hopen h.unshared hlays.sound
  obtain ⟨hprogress, -⟩ := hruns.apply (Disk.plain_ofSnapshot world.dir)
  rw [act, maintain_eq _ hengine]
  exact .after hopen hlays hprogress.toProgress

/-- So does **a compaction**. -/
theorem Serving.compact (h : Serving base writes world) :
    Serving base writes (world.act .compact).2 := by
  obtain ⟨engine, settled, hengine, hopen, hlays⟩ := h.serves
  have hruns : Runs _ (world.workspace engine) _ _ :=
    Maintenance.runs_compact world.isHeld hopen h.unshared hlays.sound
  obtain ⟨hpost, -⟩ := hruns.apply (Disk.plain_ofSnapshot world.dir)
  have hserving : Serving base writes (world.after
      ((Maintenance.compact world.isHeld).run.run (world.workspace engine)).2) := by
    cases hresult : ((Maintenance.compact world.isHeld).run.run (world.workspace engine)).1 with
    | ok replaced =>
      rw [hresult] at hpost
      exact .after hopen hlays hpost.1
    | error error =>
      rw [hresult] at hpost
      exact .after hopen hlays (Growth.toProgress hpost)
  rw [act, maintain_eq _ hengine]
  exact ⟨hserving.unshared, hserving.serves⟩

/-- A write is refused and changes nothing, or it goes into the active table of an open engine. -/
theorem act_upsert (world : World) (entry : Entry) :
    (∃ fault, world.act (.upsert entry) = (.error fault, world)) ∨
      ∃ engine, world.engine = some engine ∧ engine.closed = false ∧
        world.act (.upsert entry) =
          (.ok .done, { world with memory := world.memory.insert engine.active entry }) := by
  cases hengine : world.engine with
  | none =>
    refine .inl ⟨.noObject, ?_⟩
    rw [act, ask, hengine]
  | some engine =>
    cases hclosed : engine.closed with
    | true =>
      refine .inl ⟨.store .closed, ?_⟩
      rw [act, ask, hengine]
      dsimp only
      rw [Engine.upsert, if_pos hclosed]
      rfl
    | false =>
      refine .inr ⟨engine, rfl, hclosed, ?_⟩
      rw [act, ask, hengine]
      dsimp only
      rw [Engine.upsert, hclosed]
      rfl

/-- **A write** is accepted. -/
theorem Serving.upsert (h : Serving base writes world) (entry : Entry) :
    (world.act (.upsert entry)).1 = .ok .done ∧
      Serving base (writes ++ [entry]) (world.act (.upsert entry)).2 := by
  obtain ⟨engine, settled, hengine, hopen, hlays⟩ := h.serves
  have hask : (world.ask fun engine => engine.upsert world.memory entry) =
      .ok (world.memory.insert engine.active entry) := by
    rw [ask, hengine]
    dsimp only
    rw [Engine.upsert, hopen]
    rfl
  rw [act, hask]
  exact ⟨rfl, h.unshared, engine, settled, hengine, hopen, hlays.insert entry⟩

theorem act_reading (world : World) {event : Event} (h : event.isReading = true) :
    ∃ cursors, (world.act event).2 = { world with cursors } := by
  cases event with
  | lookup key => exact ⟨_, rfl⟩
  | range bounds => exact ⟨_, rfl⟩
  | cursor name bounds =>
    rw [act]
    split
    · exact ⟨_, rfl⟩
    · exact ⟨_, rfl⟩
  | next name =>
    rw [act]
    split
    · exact ⟨_, rfl⟩
    · exact ⟨_, rfl⟩
  | release name => exact ⟨_, rfl⟩
  | _ => cases h

/-! ## Steps -/

/-- An event that is no closing adds what it writes to what the engine has. -/
theorem Serving.act (h : Serving base writes world) {event : Event} (huse : event.isUse = true)
    (hclose : event ≠ .close) : Serving base (writes ++ event.written) (world.act event).2 := by
  have hnothing : ∀ {after : World}, Serving base writes after →
      Serving base (writes ++ []) after := fun hafter => by
    rwa [List.append_nil]
  have hreading : event.isReading = true → Serving base writes (world.act event).2 := fun hread => by
    obtain ⟨cursors, hact⟩ := act_reading world hread
    rw [hact]
    exact ⟨h.unshared, h.serves⟩
  cases event with
  | load config => cases huse
  | drop => cases huse
  | crash => cases huse
  | close => exact absurd rfl hclose
  | upsert entry => exact (h.upsert entry).2
  | flush => exact hnothing h.flush
  | compact => exact hnothing h.compact
  | block name =>
    exact hnothing (h.change fun names hnames =>
      (Snapshot.SameFiles.makeFolder h.unshared hnames).unshared)
  | unblock name =>
    exact hnothing (h.change fun names hnames =>
      (Snapshot.SameFiles.removeFolder h.unshared hnames).unshared)
  | _ => exact hnothing (hreading rfl)

/-- **Each event** of an engine in service ends the service if it is a closing that succeeds, and
otherwise adds what it writes to what the engine has. -/
theorem step_serving (h : Serving base writes world) {event : Event} (huse : event.isUse = true) :
    (∃ answer, event = .close ∧ (world.step event).1 = .ok answer ∧ Ended (world.step event).2) ∨
      ((∀ answer, event = .close → (world.step event).1 ≠ .ok answer) ∧
        Serving base (writes ++ event.written) (world.step event).2) := by
  by_cases hclose : event = .close
  · subst hclose
    rcases h.close with ⟨hanswer, hended⟩ | ⟨hanswer, hserving⟩
    · exact .inl ⟨_, rfl, hanswer, hended.releaseFiles⟩
    · refine .inr ⟨fun answer _ => hanswer answer, ?_⟩
      rw [Event.written, List.append_nil]
      · exact hserving.releaseFiles
      · simp
  · exact .inr ⟨fun _ h => absurd h hclose, (h.act huse hclose).releaseFiles⟩

/-- **A closed engine** refuses what needs an open one. -/
theorem Ended.refuses (h : Ended world) {event : Event} (hneeds : event.needsOpen = true) :
    (world.step event).1 = .error (.store .closed) := by
  obtain ⟨engine, hengine, hclosed⟩ := h.closed
  have hask : ∀ {α : Type} {question : Engine → Except Error α},
      question engine = .error .closed → world.ask question = .error (.store .closed) := by
    intro α question hquestion
    rw [ask, hengine]
    dsimp only
    rw [hquestion]
    rfl
  have hrange : ∀ bounds, engine.range world.memory bounds = .error .closed := fun bounds => by
    rw [Engine.range, if_pos hclosed]
  cases event with
  | lookup key =>
    refine hask ?_
    rw [Engine.get, if_pos hclosed]
    rfl
  | range bounds =>
    refine hask ?_
    rw [Engine.entries, hrange]
    rfl
  | cursor name bounds =>
    rw [step_eq, act, hask (hrange bounds)]
  | upsert entry =>
    rw [step_eq, act, hask (by rw [Engine.upsert, if_pos hclosed])]
  | flush =>
    rw [step_eq, act, maintain_eq _ hengine, Maintenance.run_flush_closed hclosed]
    rfl
  | compact =>
    rw [step_eq, act, maintain_eq _ hengine, Maintenance.run_compact_closed _ hclosed]
    rfl
  | _ => cases hneeds

/-- Closing it again succeeds. -/
theorem Ended.close (h : Ended world) : (world.step .close).1 = .ok .done := by
  obtain ⟨engine, hengine, hclosed⟩ := h.closed
  rw [step_eq, act, maintain_eq _ hengine, Maintenance.run_close_closed hclosed]
  rfl

theorem Ended.act (h : Ended world) {event : Event} (huse : event.isUse = true) :
    Ended (world.act event).2 := by
  have hsame : ∀ {after : World}, after.dir = world.dir → after.engine = world.engine → Ended after :=
    fun hdir hengine => ⟨hdir ▸ h.unshared, hengine ▸ h.closed⟩
  have hreading : event.isReading = true → Ended (world.act event).2 := fun hread => by
    obtain ⟨cursors, hact⟩ := act_reading world hread
    rw [hact]
    exact hsame rfl rfl
  obtain ⟨engine, hengine, hclosed⟩ := h.closed
  cases event with
  | load config => cases huse
  | drop => cases huse
  | crash => cases huse
  | upsert entry =>
    rw [World.act]
    split
    · exact h
    · exact hsame rfl rfl
  | flush =>
    rw [World.act, maintain_eq _ hengine, Maintenance.run_flush_closed hclosed]
    exact hsame rfl hengine.symm
  | compact =>
    rw [World.act, maintain_eq _ hengine, Maintenance.run_compact_closed _ hclosed]
    exact hsame rfl hengine.symm
  | close =>
    rw [World.act, maintain_eq _ hengine, Maintenance.run_close_closed hclosed]
    exact hsame rfl hengine.symm
  | block name =>
    exact h.change fun names hnames => (Snapshot.SameFiles.makeFolder h.unshared hnames).unshared
  | unblock name =>
    exact h.change fun names hnames => (Snapshot.SameFiles.removeFolder h.unshared hnames).unshared
  | _ => exact hreading rfl

/-- **A closed engine** stays closed, whatever it is asked. -/
theorem step_ended (h : Ended world) {event : Event} (huse : event.isUse = true) :
    Ended (world.step event).2 :=
  (h.act huse).releaseFiles

/-! ## Opening -/

theorem discard_none (hnone : world.engine = none) : world.discard = world := by
  rw [discard, maintain, hnone]
  cases world
  cases hnone
  rfl

/-- What a successful opening makes of a world without an engine. -/
theorem load_eq (hnone : world.engine = none) {config : Config} {answer : Answer} {opened : World}
    (h : world.step (.load config) = (.ok answer, opened)) : ∃ manager segments disk,
      (Manager.recover config).run.run (.ofSnapshot world.dir) = (.ok (manager, segments), disk) ∧
      opened = World.releaseFiles { world with
        dir := disk.snapshot
        memory := (Engine.ofSegments world.memory config manager segments).2
        engine := some (Engine.ofSegments world.memory config manager segments).1 } := by
  rw [step_eq, act, discard_none hnone, load] at h
  obtain ⟨hanswer, hopened⟩ := Prod.mk.inj h
  split at hanswer
  · cases hanswer
  · next manager segments disk hrun =>
    rw [hrun] at hopened
    exact ⟨manager, segments, disk, hrun, hopened.symm⟩

/-- **An opening** that succeeds begins the service, if the keys of each segment are in order. -/
theorem serving_load (hu : world.dir.Unshared) (hnone : world.engine = none) {config : Config}
    {answer : Answer} {opened : World} (h : world.step (.load config) = (.ok answer, opened))
    (hasc : ∀ engine, opened.engine = some engine →
      ∀ segment ∈ engine.live, Ascending segment.entries) : Serving opened.shown [] opened := by
  obtain ⟨manager, segments, disk, hrun, rfl⟩ := load_eq hnone h
  have hlive : (Engine.ofSegments world.memory config manager segments).1.live = segments :=
    Memory.segment_adoptAll world.memory config.dataDir segments
  have hu' : (Disk.ofSnapshot world.dir).snapshot.Unshared := hu
  obtain ⟨-, hmidway⟩ := (Manager.runs_parts config hu').apply (Disk.plain_ofSnapshot world.dir)
  have hunshared := hmidway.unshared
  rw [hrun] at hunshared
  have hlays := Engine.lays_ofSegments world.memory config manager
    (hlive ▸ hasc _ rfl : ∀ segment ∈ segments, Ascending segment.entries)
  have hserving : Serving (Content.ofSegments segments) [] (World.releaseFiles { world with
      dir := disk.snapshot
      memory := (Engine.ofSegments world.memory config manager segments).2
      engine := some (Engine.ofSegments world.memory config manager segments).1 }) :=
    Serving.releaseFiles ⟨hunshared, _, 0, rfl, rfl, hlays⟩
  rw [hserving.shown]
  exact hserving

/-! ## Runs -/

theorem run_events (world : World) (events : List Event) :
    (world.run events).1.map Prod.fst = events := by
  induction events generalizing world with
  | nil => rfl
  | cons event rest ih =>
    rw [run]
    exact congrArg (event :: ·) (ih _)

theorem run_ended (h : Ended world) {events : List Event}
    (huse : ∀ event ∈ events, event.isUse = true) : Ended (world.run events).2 := by
  induction events generalizing world with
  | nil => exact h
  | cons event rest ih =>
    exact ih (step_ended h (huse event (by simp))) fun event hmem => huse event (by simp [hmem])

/-- **A run** of an engine in service either holds a closing that succeeded, and then the engine is
closed, or the engine has what all the writes of the run make of what it had. -/
theorem run_serving (h : Serving base writes world) {events : List Event}
    (huse : ∀ event ∈ events, event.isUse = true) :
    ((∃ answer, (Event.close, .ok answer) ∈ (world.run events).1) ∧ Ended (world.run events).2) ∨
      ((∀ answer, (Event.close, .ok answer) ∉ (world.run events).1) ∧
        Serving base (writes ++ events.flatMap Event.written) (world.run events).2) := by
  induction events generalizing world writes with
  | nil =>
    refine .inr ⟨fun answer hmem => (nomatch hmem), ?_⟩
    rw [List.flatMap_nil, List.append_nil]
    exact h
  | cons event rest ih =>
    have hrest : ∀ event ∈ rest, event.isUse = true := fun event hmem => huse event (by simp [hmem])
    rcases step_serving h (huse event (by simp)) with ⟨answer, rfl, hanswer, hended⟩ | ⟨hanswer, hserving⟩
    · refine .inl ⟨⟨answer, ?_⟩, run_ended hended hrest⟩
      rw [run, ← hanswer]
      exact List.mem_cons_self
    · rcases ih hserving hrest with ⟨⟨answer, hmem⟩, hended⟩ | ⟨hnone, hserving'⟩
      · exact .inl ⟨⟨answer, List.mem_cons_of_mem _ hmem⟩, hended⟩
      · refine .inr ⟨fun answer hmem => ?_, ?_⟩
        · rcases List.mem_cons.1 hmem with hfirst | hmem
          · obtain ⟨hclose, hok⟩ := Prod.mk.inj hfirst
            exact hanswer answer hclose.symm hok.symm
          · exact hnone answer hmem
        · rw [List.flatMap_cons, ← List.append_assoc]
          exact hserving'

/-- **An engine is a map** from its opening on, on whatever directory that holds its segments in order.
After any events in any order, with directories put in the way of its files or not, it answers each key
with the last entry written for it, or as at the opening if none was, as long as no closing has succeeded.
Once one has, it refuses whatever needs an open engine, and can be closed again. -/
theorem lookup_answers_last_write (world : World) (hu : world.dir.Unshared) (hnone : world.engine = none)
    {config : Config} {answer : Answer} {opened : World}
    (hload : world.step (.load config) = (.ok answer, opened))
    (hasc : ∀ engine, opened.engine = some engine →
      ∀ segment ∈ engine.live, Ascending segment.entries)
    (events : List Event) (huse : ∀ event ∈ events, event.isUse = true) :
    ((∀ answer, (Event.close, .ok answer) ∉ (opened.run events).1) → ∀ key,
      ((opened.run events).2.step (.lookup key)).1 =
        .ok (.value (Content.after opened.shown (events.flatMap Event.written) key))) ∧
    ((∃ answer, (Event.close, .ok answer) ∈ (opened.run events).1) →
      (∀ event, event.needsOpen = true →
        ((opened.run events).2.step event).1 = .error (.store .closed)) ∧
      ((opened.run events).2.step .close).1 = .ok .done) := by
  rcases run_serving (serving_load hu hnone hload hasc) huse with
    ⟨⟨answer, hmem⟩, hended⟩ | ⟨hnone, hserving⟩
  · exact ⟨fun h => absurd hmem (h answer), fun _ => ⟨fun _ => hended.refuses, hended.close⟩⟩
  · refine ⟨fun _ key => ?_, fun ⟨answer, hmem⟩ => absurd hmem (hnone answer)⟩
    exact hserving.lookup key

/-- Two writes and a deletion, between them a flush that fails because a directory is in its way, one
that succeeds, and a compaction. -/
def mixed : List Event :=
  [.upsert (.put [1] [7]), .upsert (.put [2] []), .block "MANIFEST.tmp", .flush, .upsert (.tombstone [1]),
    .unblock "MANIFEST.tmp", .flush, .compact]

/-- In a new directory the deleted key is gone afterwards, and the other has the empty value. -/
theorem lookup_answers_last_write_mixed : ∃ answer opened,
    World.empty.step (.load {}) = (.ok answer, opened) ∧
      ((opened.run mixed).2.step (.lookup [1])).1 = .ok (.value none) ∧
      ((opened.run mixed).2.step (.lookup [2])).1 = .ok (.value (some [])) := by
  have hok : (World.empty.step (.load {})).1.isOk = true := by decide +kernel
  have hlive : (World.empty.step (.load {})).2.engine.all (fun engine => engine.live.isEmpty) = true := by
    decide +kernel
  cases hstep : World.empty.step (.load {}) with
  | mk result opened =>
    rw [hstep] at hok hlive
    cases result with
    | error fault => cases hok
    | ok answer =>
      refine ⟨answer, opened, rfl, ?_⟩
      have hasc : ∀ engine, opened.engine = some engine →
          ∀ segment ∈ engine.live, Ascending segment.entries := by
        intro engine hengine segment hmem
        rw [hengine] at hlive
        rw [List.isEmpty_iff.1 hlive] at hmem
        cases hmem
      have hmap := (lookup_answers_last_write World.empty Snapshot.unshared_empty rfl hstep hasc mixed
        (by decide)).1 fun answer hmem => by
          have hevent : Event.close ∈ (opened.run mixed).1.map Prod.fst := List.mem_map_of_mem hmem
          rw [run_events] at hevent
          simp [mixed] at hevent
      exact ⟨hmap [1], hmap [2]⟩

end World

end LsmTree
