import LsmTree.Proofs.Consistency

/-!
# A crash at any moment

A flush, a compaction or a closing issues mutations of the directory one after the other. Whatever first
part of them has taken place when the process ends, opening the directory succeeds and shows what was
committed before, with some of the tables that were to be written out; of a compaction, all of them or
none.

* **`World.Reopens`** — a directory that can be opened, and then holds nothing else than it should;
* **`World.reopens`** — that of recoverable directories;
* **`World.crash_shows_committed`** — what every crash leaves.
-/

namespace LsmTree

open Content (overlay ofSegments)

namespace World

/-- The mutations of the directory that a step of maintenance issues. -/
def issued {α : Type} (world : World) (step : Maintenance.MaintenanceM α) : List Mutation :=
  match world.engine with
  | none => []
  | some engine => (step.run.run (world.workspace engine)).2.disk.issued

/-- The mutations of the directory that a flush, a compaction or a closing issues. -/
def issues (world : World) : Event → List Mutation
  | .flush => world.issued Maintenance.flush
  | .compact => world.issued (Maintenance.compact world.isHeld)
  | .close => world.issued Maintenance.close
  | _ => []

/-- A directory stands where the new manifest is to be written first. -/
def Blocked (dir : Snapshot) : Prop := dir.holding (FileName.temporary FileName.manifest) = .folder

/-- Opening a directory succeeds, whatever the settings, and shows the given content. Its files are then
the manifest and those of the segments that the manifest lists. -/
def Reopens (content : Content) (dir : Snapshot) : Prop :=
  ∀ config, ∃ answer opened engine, (ofDir dir).step (.load config) = (.ok answer, opened) ∧
    Answers content opened ∧ opened.engine = some engine ∧
    Committed opened.dir engine.manager.next engine.live ∧ Clean engine.live opened.dir

variable {world : World} {ledger : Ledger} {engine : Engine} {recorded : UInt64}
  {segments : List Segment} {limit : Nat} {dir : Snapshot}

/-- **A recoverable directory** can be opened, unless a directory is in the place of the manifest. -/
theorem reopens (h : Recoverable recorded segments dir) (htidy : Tidy limit dir)
    (hrecorded : recorded.toNat ≤ limit) (hpos : 0 < limit) (hlimit : limit < UInt64.size)
    (hfree : ¬ Blocked dir) (hmanifest : dir.holding FileName.manifest ≠ .folder) :
    Reopens (ofSegments segments) dir := by
  intro config
  have hstart : Recoverable recorded segments (ofDir dir).dir := h
  rcases load_opened config hstart htidy hrecorded hpos hlimit with
    ⟨answer, opened, engine, hload, hopened, hle, -, hreplaced⟩ | ⟨-, -, -, -, -, hblocked⟩
  · have hspares : Maintenance.Spares opened.replaced recorded segments := by
      rw [hreplaced]
      exact fun handle hmem => (nomatch hmem)
    have hreleased := hopened.releaseFiles hspares hle
    refine ⟨answer, opened.releaseFiles, engine, ?_, hreleased.serving.answers, hreleased.present, ?_, ?_⟩
    · rw [step_eq, act, discard_none rfl, hload]
    · rw [hopened.live]
      exact hreleased.kept.committed
    · rw [hopened.live]
      exact hreleased.clean
  · exact hblocked.elim (fun h => absurd h hfree) fun h => absurd h hmanifest

theorem reopens_of_shows {more : Nat} {content : Content} (h : Shows limit content dir)
    (hle : limit ≤ more) (hpos : 0 < more) (hlimit : more < UInt64.size) (hfree : ¬ Blocked dir) :
    Reopens content dir := by
  obtain ⟨recorded, next, segments, hkept, hnext, rfl⟩ := h
  have hnext := Nat.le_trans hnext hle
  refine reopens hkept.recoverable (hkept.tidy.mono hnext)
    (Nat.le_trans (UInt64.le_iff_toNat_le.1 hkept.recorded_le) hnext) hpos hlimit hfree ?_
  obtain ⟨bytes, -, hfile⟩ := hkept.committed.written
  rw [hfile]
  simp

/-- What a crash of an engine in use leaves is committed to the segments of the engine with some of its
tables over them. -/
theorem Using.shows {reached : List Nat → Prop} {handed : Nat} (h : Using world ledger engine)
    (hcrash : Maintenance.Interrupted reached handed (world.workspace engine).frozen dir)
    (hroom : ledger.handedOut + handed < UInt64.size - 1) :
    ∃ written, reached written ∧ Shows (ledger.handedOut + handed + 1)
      (overlay world.memory written.reverse (ofSegments engine.live)) dir := by
  obtain ⟨recorded, hkeeps, -⟩ := h.keeps
  have hroom' := h.room hroom
  have hnext : (world.workspace engine).next.toNat ≤ ledger.handedOut + 1 := h.next_le
  have hfrozen : (world.workspace engine).frozen.next = (world.workspace engine).next := by
    rw [Maintenance.Workspace.next, Maintenance.frozen_manager]
  rw [← hfrozen] at hroom' hnext
  obtain ⟨written, hreached, hshows⟩ := hcrash.shows (Maintenance.keeps_frozen hkeeps) hroom'
  rw [Maintenance.frozen_live, Content.overlay_congr fun id _ => Maintenance.table_frozen id] at hshows
  exact ⟨written, hreached, hshows.mono (by omega)⟩

/-- **A crash** of an engine in use shows the segments of the engine with some of its tables over them. -/
theorem Using.crash {reached : List Nat → Prop} {handed : Nat} (h : Using world ledger engine)
    (hcrash : Maintenance.Interrupted reached handed (world.workspace engine).frozen dir)
    (hroom : ledger.handedOut + handed < UInt64.size - 1) (hfree : ¬ Blocked dir) :
    ∃ written, reached written ∧
      Reopens (overlay world.memory written.reverse (ofSegments engine.live)) dir := by
  obtain ⟨written, hreached, hshows⟩ := h.shows hcrash hroom
  exact ⟨written, hreached, reopens_of_shows hshows (Nat.le_refl _) (Nat.succ_pos _) (by omega) hfree⟩

theorem Idle.issues_eq (h : Idle world ledger) {event : Event} (hpersists : event.persists = true) :
    world.issues event = [] := by
  have hnothing : ∀ {α : Type} (step : Maintenance.MaintenanceM α),
      (∀ engine, world.engine = some engine →
        (step.run.run (world.workspace engine)).2 = world.workspace engine) →
      world.issued step = [] := by
    intro α step hstep
    rw [issued]
    split
    · rfl
    · next engine hengine =>
      rw [hstep engine hengine]
      rfl
  cases event with
  | flush =>
    refine hnothing Maintenance.flush fun engine hengine => ?_
    rw [Maintenance.run_flush_closed (h.closed engine hengine).1]
  | compact =>
    refine hnothing (Maintenance.compact world.isHeld) fun engine hengine => ?_
    rw [Maintenance.run_compact_closed _ (h.closed engine hengine).1]
  | close =>
    refine hnothing Maintenance.close fun engine hengine => ?_
    rw [Maintenance.run_close_closed (h.closed engine hengine).1]
  | _ => cases hpersists

/-- The directory of an engine that has closed it can be opened. -/
theorem Idle.reopens (h : Idle world ledger) (hengine : world.engine = some engine)
    (hroom : ledger.handedOut < UInt64.size - 1) :
    ∃ content, ¬ Blocked world.dir → Reopens content world.dir := by
  obtain ⟨recorded, segments, hrecoverable, hrecorded, -⟩ := h.stored
  obtain ⟨-, -, -, bytes, hfile⟩ := h.closed engine hengine
  refine ⟨_, fun hfree =>
    World.reopens hrecoverable h.tidy hrecorded (Nat.succ_pos _) (by omega) hfree ?_⟩
  rw [hfile]
  simp

/-- So can that of an engine in use, which shows its segments. -/
theorem Using.reopens (h : Using world ledger engine) (hroom : ledger.handedOut < UInt64.size - 1)
    (hfree : ¬ Blocked world.dir) : Reopens (ofSegments engine.live) world.dir := by
  obtain ⟨recorded, hkept, -⟩ := h.kept
  exact reopens_of_shows hkept.shows h.next_le (Nat.succ_pos _) (by omega) hfree

/-- The tables that were written out are the oldest of those that waited or took the writes. -/
theorem written_eq_take {written : List Nat}
    (h : written <+: (world.workspace engine).frozen.engine.queue) :
    ∃ count, written = (engine.queue ++ [engine.active]).take count := by
  have hprefix : written <+: engine.queue ++ [engine.active] := by
    rcases (Maintenance.frozen_queue : (world.workspace engine).frozen.engine.queue = engine.queue ∧ _ ∨
      _ = engine.queue ++ [engine.active]) with ⟨hqueue, -⟩ | hqueue
    · rw [hqueue] at h
      exact h.trans (List.prefix_append _ _)
    · rw [hqueue] at h
      exact h
  exact ⟨written.length, List.prefix_iff_eq_take.1 hprefix⟩

/-- **A crash in a flush** finds the oldest tables written out, each as a whole. -/
theorem Using.crash_flush (h : Using world ledger engine)
    (hroom : (ledger.note world .flush).handedOut < UInt64.size - 1) {first : List Mutation}
    (hfirst : first <+: world.issues .flush) (hfree : ¬ Blocked (world.dir.replay first)) :
    ∃ count, Reopens (overlay world.memory ((engine.queue ++ [engine.active]).take count).reverse
      (ofSegments engine.live)) (world.dir.replay first) := by
  have hruns : Runs _ (world.workspace engine) _ _ :=
    Maintenance.runs_flush h.opened h.unshared h.sound
  rw [note_handedOut] at hroom
  rw [h.handsOut_flush (Nat.lt_of_le_of_lt (Nat.le_add_right _ _) hroom)] at hroom
  rw [issues, issued, h.present] at hfirst
  obtain ⟨written, hwritten, hreopens⟩ :=
    h.crash (hruns.crashes (Disk.plain_ofSnapshot world.dir) rfl hfirst) hroom hfree
  obtain ⟨count, rfl⟩ := written_eq_take hwritten
  exact ⟨count, hreopens⟩

/-- So does **a crash in a closing**. -/
theorem Using.crash_close (h : Using world ledger engine)
    (hroom : (ledger.note world .close).handedOut < UInt64.size - 1) {first : List Mutation}
    (hfirst : first <+: world.issues .close) (hfree : ¬ Blocked (world.dir.replay first)) :
    ∃ count, Reopens (overlay world.memory ((engine.queue ++ [engine.active]).take count).reverse
      (ofSegments engine.live)) (world.dir.replay first) := by
  have hruns : Runs _ (world.workspace engine) _ _ :=
    Maintenance.runs_close h.opened h.unshared h.sound
  rw [note_handedOut] at hroom
  rw [h.handsOut_close (Nat.lt_of_le_of_lt (Nat.le_add_right _ _) hroom)] at hroom
  rw [issues, issued, h.present] at hfirst
  obtain ⟨written, hwritten, hreopens⟩ :=
    h.crash (hruns.crashes (Disk.plain_ofSnapshot world.dir) rfl hfirst) hroom hfree
  obtain ⟨count, rfl⟩ := written_eq_take hwritten
  exact ⟨count, hreopens⟩

/-- **A crash in a compaction** finds the segments as they were, or all that the engine has. -/
theorem Using.crash_compact (h : Using world ledger engine)
    (hroom : (ledger.note world .compact).handedOut < UInt64.size - 1) {first : List Mutation}
    (hfirst : first <+: world.issues .compact) (hfree : ¬ Blocked (world.dir.replay first)) :
    Reopens (ofSegments engine.live) (world.dir.replay first) ∨
      Reopens world.shown (world.dir.replay first) := by
  have hruns : Runs _ (world.workspace engine) _ _ :=
    Maintenance.runs_compact world.isHeld h.opened h.unshared h.sound
  rw [note_handedOut] at hroom
  rw [h.handsOut_compact (Nat.lt_of_le_of_lt (Nat.le_add_right _ _) hroom)] at hroom
  rw [issues, issued, h.present] at hfirst
  obtain ⟨written, rfl | rfl, hreopens⟩ :=
    h.crash (hruns.crashes (Disk.plain_ofSnapshot world.dir) rfl hfirst) hroom hfree
  · exact .inl hreopens
  · -- All tables over the segments are all that the engine has.
    have hall : overlay world.memory (world.workspace engine).frozen.engine.queue.reverse
        (ofSegments engine.live) = engine.content world.memory := by
      have hfrozen : overlay (world.workspace engine).frozen.memory
          (world.workspace engine).frozen.engine.queue.reverse
          (ofSegments (world.workspace engine).frozen.engine.live) = engine.content world.memory :=
        Maintenance.overlay_frozen
      rw [Maintenance.frozen_live, Content.overlay_congr fun id _ => Maintenance.table_frozen id] at hfrozen
      exact hfrozen
    have hshown : world.shown = engine.content world.memory := by
      obtain ⟨settled, -, hlays⟩ := h.lays
      rw [h.serving.shown, hlays.content_eq]
    rw [hall, ← hshown] at hreopens
    exact .inr hreopens

/-- **Crash atomicity.** Whatever happened to a directory that was empty at the start: if the process ends
after any first part of the mutations that a flush, a compaction or a closing issues, opening the directory
succeeds, unless another directory stands in the way of a new manifest. It shows what it would have shown
before, with some of the oldest tables of the engine over it, and after a compaction either nothing over it
or all that the engine has. No other files are left then than the manifest and those of the segments. -/
theorem crash_shows_committed (h : Reached world ledger) (hengine : world.engine = some engine)
    {event : Event} (hpersists : event.persists = true)
    (hroom : (ledger.note world event).handedOut < UInt64.size - 1) :
    ∃ before, (¬ Blocked world.dir → Reopens before world.dir) ∧
      ∀ first, first <+: world.issues event → ¬ Blocked (world.dir.replay first) →
        ∃ content, Reopens content (world.dir.replay first) ∧
          (event = .compact → content = before ∨ content = world.shown) ∧
          (event ≠ .compact → ∃ count, content =
            overlay world.memory ((engine.queue ++ [engine.active]).take count).reverse before) := by
  have hbefore : ledger.handedOut < UInt64.size - 1 := by
    rw [note_handedOut] at hroom
    exact Nat.lt_of_le_of_lt (Nat.le_add_right _ _) hroom
  rcases h.consistent hbefore with ⟨engine', husing⟩ | hidle
  · obtain rfl : engine = engine' := Option.some.inj (hengine.symm.trans husing.present)
    refine ⟨ofSegments engine.live, husing.reopens hbefore, fun first hfirst hfree => ?_⟩
    cases event with
    | flush =>
      obtain ⟨count, hreopens⟩ := husing.crash_flush hroom hfirst hfree
      exact ⟨_, hreopens, nofun, fun _ => ⟨count, rfl⟩⟩
    | compact =>
      rcases husing.crash_compact hroom hfirst hfree with hreopens | hreopens
      · exact ⟨_, hreopens, fun _ => .inl rfl, fun hne => absurd rfl hne⟩
      · exact ⟨_, hreopens, fun _ => .inr rfl, fun hne => absurd rfl hne⟩
    | close =>
      obtain ⟨count, hreopens⟩ := husing.crash_close hroom hfirst hfree
      exact ⟨_, hreopens, nofun, fun _ => ⟨count, rfl⟩⟩
    | _ => cases hpersists
  · obtain ⟨before, hreopens⟩ := hidle.reopens hengine hbefore
    refine ⟨before, hreopens, fun first hfirst hfree => ?_⟩
    rw [hidle.issues_eq hpersists, List.prefix_nil] at hfirst
    subst hfirst
    exact ⟨before, hreopens hfree, fun _ => .inl rfl, fun _ => ⟨0, rfl⟩⟩

/-- A write that is flushed, and its deletion. -/
def deleted : List Event := [.load {}, .upsert (.put [1] [7]), .flush, .upsert (.tombstone [1])]

/-- A compaction then keeps neither of them. Even if the process ends when one of the two files of the
replaced segment is unlinked and the other is still there, the key is not half of either. -/
theorem crash_shows_committed_deleted : ∃ engine before content,
    (World.empty.run deleted).2.engine = some engine ∧
      Reached (World.empty.run deleted).2 (Ledger.empty.noteAll .empty deleted) ∧
      Reopens before (World.empty.run deleted).2.dir ∧
      Reopens content ((World.empty.run deleted).2.dir.replay
        (((World.empty.run deleted).2.issues .compact).take 9)) ∧
      (content = before ∨ content = (World.empty.run deleted).2.shown) := by
  have hreached : Reached (World.empty.run deleted).2 (Ledger.empty.noteAll .empty deleted) :=
    Reached.start.run deleted
  have hpresent : (World.empty.run deleted).2.engine.isSome = true := by decide +kernel
  have hroom : ((Ledger.empty.noteAll .empty deleted).note (World.empty.run deleted).2
      .compact).handedOut < UInt64.size - 1 := by
    decide +kernel
  have hfree : ¬ Blocked (World.empty.run deleted).2.dir := by
    unfold Blocked
    decide +kernel
  have hfree' : ¬ Blocked ((World.empty.run deleted).2.dir.replay
      (((World.empty.run deleted).2.issues .compact).take 9)) := by
    unfold Blocked
    decide +kernel
  obtain ⟨engine, hengine⟩ := Option.isSome_iff_exists.1 hpresent
  obtain ⟨before, hbefore, hcrash⟩ := crash_shows_committed hreached hengine rfl hroom
  obtain ⟨content, hreopens, hcompact, -⟩ := hcrash _ (List.take_prefix 9 _) hfree'
  exact ⟨engine, before, content, hengine, hreached, hbefore hfree, hreopens, hcompact rfl⟩

end World

end LsmTree
