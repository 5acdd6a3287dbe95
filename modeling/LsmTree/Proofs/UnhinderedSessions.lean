import LsmTree.Proofs.OpeningPaths
import LsmTree.Proofs.Sessions
import LsmTree.Proofs.UnhinderedMaintenance

/-!
# Maintenance at a path

What holds of maintenance in a world holds in a session, wherever its directory is, as long as the path leaves
room for the names that a step wants. If it does not, the step fails, though nothing is under those names.

* **`Session.reach`** — the session that events lead to, and **`Session.written`** — what was written in it;
* **`Session.Carries.free`** — what is free at the path is free in the world of the session, and
  **`Session.Carries.step_done`** — what maintenance does there is done in the session;
* **`World.Reopens.load`** — a directory that can be opened is opened at its path;
* **`Session.maintenance_succeeds`** — every flush, compaction and closing of an open engine succeeds, but
  **`Session.maintenance_fails_overlong`** — none does where the path is too long.
-/

namespace LsmTree

open Maintenance (Workspace)

/-! ## Opening at the path -/

theorem World.Reopens.opening {content : Content} {dir : Snapshot} (h : Reopens content dir)
    (config : Config) : ∃ manager segments,
      (Manager.opening config dir).1 = .ok (manager, segments) ∧
      ∀ key, (Engine.ofSegments .empty config manager segments).1.get
        (Engine.ofSegments .empty config manager segments).2 key = .ok (content key) := by
  obtain ⟨answer, opened, -, hstep, hanswers, -⟩ := h config
  rw [step_eq, act, discard_none rfl] at hstep
  unfold World.load at hstep
  cases hrun : (Manager.recover config).run.run (.ofSnapshot (ofDir dir).dir) with
  | mk result disk =>
    rw [hrun] at hstep
    cases result with
    | error error => cases (Prod.mk.inj hstep).1
    | ok found =>
      obtain ⟨manager, segments⟩ := found
      obtain ⟨-, rfl⟩ := Prod.mk.inj hstep
      refine ⟨manager, segments, congrArg Prod.fst hrun, fun key => ?_⟩
      have hlookup : (Answer.value <$> (Engine.ofSegments .empty config manager segments).1.get
          (Engine.ofSegments .empty config manager segments).2 key).mapError StepFault.store =
            .ok (.value (content key)) := hanswers.lookup key
      cases hget : (Engine.ofSegments .empty config manager segments).1.get
          (Engine.ofSegments .empty config manager segments).2 key with
      | error error =>
        rw [hget] at hlookup
        cases hlookup
      | ok value =>
        rw [hget] at hlookup
        exact congrArg Except.ok (Answer.value.inj (Except.ok.inj hlookup))

/-- **A directory that can be opened** with some content is opened with it at its path. -/
theorem World.Reopens.load {content : Content} {config : Config} {volume : Volume} {dir : Directory}
    (h : Reopens content (volume.shown config.dataDir)) (hfolder : volume.folder config.dataDir = .ok dir) :
    ∃ engine memory after, Engine.load config .empty volume = (.ok (engine, memory), after) ∧
      ∀ key, engine.get memory key = .ok (content key) := by
  obtain ⟨manager, segments, hopens, hget⟩ := h.opening config
  have hload := (Manager.load_eq_ok_iff hfolder).2 hopens
  refine ⟨_, _, (Manager.load config volume).2, ?_, hget⟩
  rw [Engine.load, show Manager.load config volume = (.ok (manager, segments), _) from Prod.ext hload rfl]

namespace Session

variable {name path : String} {volume : Volume} {world : World} {engine : Engine}

/-- The session that events lead to on a volume, with the engine of a name in the directory at a path. -/
def reach (name path : String) (volume : Volume) (events : List Event) : Session :=
  ((take (events.map (Event.asStep name path))).run { empty with volume }).2

/-- What was written in it since the directory was last opened, in a directory that was empty at first. -/
def written (path : String) (volume : Volume) (events : List Event) : Ledger :=
  Ledger.empty.noteAll (.ofDir (volume.shown path)) events

/-- What maintenance works on. -/
def workspace (session : Session) (engine : Engine) : Workspace :=
  ⟨engine, session.memory, session.volume.disk engine.config.dataDir⟩

/-- **What is free at the path** is free in the world of the session. -/
theorem Carries.free {session : Session} {event : Event} (h : session.Carries name path world)
    (hengine : world.engine = some engine) (hfree : (session.workspace engine).Free event) :
    (world.workspace engine).Free event := by
  obtain ⟨dir, hfolder, -⟩ := h.shadowed
  have hshown : session.volume.shown path = world.dir := h.shadowed.shown_eq
  have hsame : (session.workspace engine).wanted event = (world.workspace engine).wanted event := by
    rw [workspace, h.memory]
    rfl
  intro other hmem
  obtain ⟨hfits, hfree⟩ := hfree other (hsame ▸ hmem)
  refine ⟨rfl, ?_⟩
  simp only [workspace, (h.engine_at engine hengine).dataDir, Volume.disk_of_folder hfolder] at hfits hfree
  show world.dir.holding other ≠ .folder
  rw [← hshown, Volume.shown, Snapshot.holding_shaded_of_fits hfits, Volume.snapshot_of_folder hfolder]
  exact hfree

/-- The same segments are planned in both. -/
theorem Carries.planned_eq {session : Session} (h : session.Carries name path world) (engine : Engine)
    (event : Event) :
    (session.workspace engine).planned event = (world.workspace engine).planned event := by
  have hsame : session.workspace engine =
      { world.workspace engine with disk := session.volume.disk engine.config.dataDir } := by
    rw [workspace, h.memory]
    rfl
  rw [hsame, Workspace.planned_withDisk]

/-- **Maintenance that the world does** is done by its session. -/
theorem Carries.step_done {session : Session} {event : Event} {last : World}
    (h : session.Carries name path world) (hpersists : event.persists = true)
    (hstep : world.step event = (.ok .done, last)) : ∃ after,
      (event.asStep name path).run.run session = (.ok .done, after) ∧ after.Carries name path last := by
  obtain ⟨huses, hasked⟩ : event.Uses path ∧ event.isAsked = true := by
    cases event with
    | flush | compact | close => exact ⟨trivial, rfl⟩
    | _ => cases hpersists
  have hfollows := h.step huses
  rw [hstep] at hfollows
  have hdone : ((event.asStep name path).run.run session).1 = .ok .done := by
    rcases (hfollows.alike hasked).elim with ⟨answer, htold, hanswer⟩ | ⟨fault, other, -, hanswer⟩
    · rw [htold]
      exact hanswer.symm
    · cases hanswer
  exact ⟨_, Prod.ext hdone rfl, hfollows.carries⟩

variable {events : List Event}

/-- A session runs as the world does that sees the directory at the path. -/
theorem carries_reach (hfolder : volume.folder path = .ok .empty)
    (huses : ∀ event ∈ events, event.Uses path) : (reach name path volume events).Carries name path
      ((World.ofDir (volume.shown path)).run events).2 := by
  rw [Volume.shown, Volume.snapshot_of_folder hfolder]
  exact ((carries_start hfolder).run huses).2

theorem reached_written (hfolder : volume.folder path = .ok .empty) :
    World.Reached ((World.ofDir (volume.shown path)).run events).2 (written path volume events) := by
  rw [written, Volume.shown, Volume.snapshot_of_folder hfolder]
  exact (World.reached_shaded _ _).run events

/-- **Maintenance never fails without a reason**, at any path. In a session on a directory that was empty at
the start, after any steps of maintenance that failed: if the path leaves room for the names that a step wants,
no directory is under one of them and all that it writes fits the formats, an open engine flushes, compacts
and closes with success. A flush leaves no table with entries, and all that was in one, like all that was
written before, is in the segments that the manifest lists. The directory can then be opened, with or without
a verification, and has all writes. -/
theorem maintenance_succeeds {session : Session} {ledger : Ledger} {event : Event}
    (hfolder : volume.folder path = .ok .empty) (huses : ∀ event ∈ events, event.Uses path)
    (hsession : reach name path volume events = session) (hledger : written path volume events = ledger)
    (hengine : session.engines.get? name = some engine) (hopen : engine.closed = false)
    (hpersists : event.persists = true)
    (hroom : (written path volume (events ++ [event])).handedOut < UInt64.size - 1)
    (hfree : (session.workspace engine).Free event)
    (hfits : Fits ((session.workspace engine).planned event)) :
    ∃ after left, (event.asStep name path).run.run session = (.ok .done, after) ∧
      after.engines.get? name = some left ∧
      (∀ config : Config, config.dataDir = path → ∃ opened memory reopened,
        Engine.load config .empty after.volume = (.ok (opened, memory), reopened) ∧
        ∀ key, opened.get memory key = .ok (Content.after ledger.base ledger.writes key)) ∧
      (event = .flush → left.queue = [] ∧ (after.memory.table left.active).isEmpty = true ∧
        (∃ bytes manifest, (after.volume.snapshot path).holding FileName.manifest = .file bytes ∧
          Manifest.decode bytes = .ok manifest ∧ manifest.segments = left.live.reverse.map Segment.info) ∧
        (∀ segment ∈ engine.live, segment ∈ left.live) ∧
        (∀ id ∈ engine.queue ++ [engine.active], ∀ entry ∈ (session.memory.table id).entries,
          ∃ segment ∈ left.live, entry ∈ segment.entries) ∧
        Content.ofSegments left.live = Content.after ledger.base ledger.writes) := by
  subst hsession hledger
  have hcarries : (reach name path volume events).Carries name path _ := carries_reach hfolder huses
  have hreached : World.Reached ((World.ofDir (volume.shown path)).run events).2 _ := reached_written hfolder
  rw [written, Ledger.noteAll_append] at hroom
  rw [written] at hreached ⊢
  generalize reach name path volume events = session at *
  generalize ((World.ofDir (volume.shown path)).run events).2 = world at *
  generalize Ledger.empty.noteAll (World.ofDir (volume.shown path)) events = ledger at *
  have hpresent : world.engine = some engine := hcarries.engine.symm.trans hengine
  obtain ⟨last, left, hstep, hleft, hreopens, hflushed⟩ := hreached.maintains hpresent hopen hpersists hroom
    (hcarries.free hpresent hfree) (hcarries.planned_eq engine event ▸ hfits)
  obtain ⟨after, hrun, hafter⟩ := hcarries.step_done hpersists hstep
  obtain ⟨dir, hfolder, -⟩ := id hafter.shadowed
  have hshown : after.volume.shown path = last.dir := hafter.shadowed.shown_eq
  rw [← hshown] at hreopens hflushed
  refine ⟨after, left, hrun, hafter.engine.trans hleft, fun config hconfig => ?_, fun hflush => ?_⟩
  · subst hconfig
    exact hreopens.load hfolder
  · obtain ⟨hqueue, hempty, ⟨bytes, manifest, hfile, hdecode, hlisted⟩, hkept, hsegments, hcontent⟩ :=
      hflushed hflush
    rw [hafter.memory, hcarries.memory]
    exact ⟨hqueue, hempty, ⟨bytes, manifest, (Snapshot.holding_shaded_eq_file.1 hfile).2, hdecode, hlisted⟩,
      hkept, hsegments, hcontent⟩

/-- A flush, a compaction and a closing that fail because a directory is in their way, which is taken away
then. -/
def continued : List Event :=
  [.load { dataDir := "db" }, .upsert (.put [1] [7]), .block "MANIFEST.tmp", .flush, .upsert (.tombstone [2]),
    .compact, .close, .unblock "MANIFEST.tmp", .upsert (.put [1] [])]

/-- The session that they lead to. -/
def resumed : Session := reach "store" "db" (Manager.housing .empty) continued

theorem uses_continued : ∀ event ∈ continued, event.Uses "db" := by
  have hname : Path.Reaches "db" "MANIFEST.tmp" :=
    ⟨⟨by decide +kernel, by decide +kernel, by decide +kernel, by decide +kernel⟩, by decide +kernel,
      by decide +kernel, by decide +kernel⟩
  simp only [continued, List.forall_mem_cons, Event.Uses]
  exact ⟨trivial, trivial, hname, trivial, trivial, trivial, trivial, ⟨hname, by decide +kernel⟩, trivial,
    fun _ hmem => nomatch hmem⟩

theorem written_housing (events : List Event) :
    written "db" (Manager.housing .empty) events = Ledger.empty.noteAll .empty events := by
  have hroom : Path.room? "db" = none := by decide +kernel
  rw [written, Volume.shown, hroom, Snapshot.shaded_none, Manager.snapshot_housing]
  rfl

/-- All three tables are written out by the next flush, and the directory can be opened then. -/
theorem maintenance_succeeds_resumed : ∃ engine after left opened memory reopened,
    resumed.engines.get? "store" = some engine ∧ (resumed.workspace engine).Free .flush ∧
    (Event.flush.asStep "store" "db").run.run resumed = (.ok .done, after) ∧
    after.engines.get? "store" = some left ∧ left.queue = [] ∧ left.generations = [4, 5, 6] ∧
    Engine.load { dataDir := "db", verifyChecksums := true } .empty after.volume =
      (.ok (opened, memory), reopened) ∧
    opened.get memory [1] = .ok (some []) ∧ opened.get memory [2] = .ok none := by
  -- What can be computed is computed at once, since all of it needs the same run.
  obtain ⟨hroom, hwrites, hpresent, hgenerations⟩ :
      (Ledger.empty.noteAll .empty (continued ++ [.flush])).handedOut < UInt64.size - 1 ∧
      (Ledger.empty.noteAll .empty continued).writes = [.put [1] [7], .tombstone [2], .put [1] []] ∧
      (resumed.engines.get? "store").any (fun engine => !engine.closed &&
        ((resumed.workspace engine).wanted .flush).all (fun name =>
          (resumed.workspace engine).disk.fits name &&
            (resumed.workspace engine).snapshot.holding name ≠ .folder) &&
        ((resumed.workspace engine).planned .flush).all (fun segment =>
          segment.data.length < Layout.offsetSize) &&
        (Manifest.current 0 (((resumed.workspace engine).planned .flush).reverse.map
          Segment.info)).payload.length < UInt32.size) = true ∧
      (((Event.flush.asStep "store" "db").run.run resumed).2.engines.get? "store").all
        (fun left => left.generations = [4, 5, 6]) = true := by decide +kernel
  obtain ⟨engine, hengine, hpresent⟩ := (Option.any_eq_true _ _).1 hpresent
  simp only [Bool.and_eq_true, Bool.not_eq_true', List.all_eq_true, decide_eq_true_eq] at hpresent
  obtain ⟨⟨⟨hopen, hfree⟩, hdata⟩, hmanifest⟩ := hpresent
  have hfits : Fits ((resumed.workspace engine).planned .flush) := .of_first hdata hmanifest
  have hsession : reach "store" "db" (Manager.housing .empty) continued = resumed := rfl
  obtain ⟨after, left, hstep, hleft, hopens, hflushed⟩ :=
    maintenance_succeeds (Manager.folder_housing .empty) uses_continued hsession (written_housing _) hengine
      hopen rfl (by rwa [written_housing]) hfree hfits
  obtain ⟨opened, memory, reopened, hload, hget⟩ := hopens { dataDir := "db", verifyChecksums := true } rfl
  rw [hstep, hleft] at hgenerations
  rw [hwrites] at hget
  exact ⟨engine, after, left, opened, memory, reopened, hengine, hfree, hstep, hleft, (hflushed rfl).1,
    of_decide_eq_true hgenerations, hload, hget [1], hget [2]⟩

/-! ## Where the path is too long -/

/-- The settings for a directory whose path leaves twenty-two octets for a name. -/
def narrow : Config := { dataDir := Path.lengthened "db" 2035 }

/-- What is found in it at first. -/
def cramped : Disk := ⟨.ok .empty, ⟨[]⟩, some 22, none, none, []⟩

theorem folder_narrow : (Manager.housing .empty).folder narrow.dataDir = .ok .empty :=
  Volume.folder_lengthened (Manager.folder_housing .empty) (by decide)

theorem disk_narrow : (Manager.housing .empty).disk narrow.dataDir = cramped :=
  Volume.disk_lengthened (Manager.folder_housing .empty) (by decide) (by decide)

/-- What an opening leaves there: the manifest. -/
def furnished : Disk := ((Manager.recover narrow).run.run cramped).2

theorem folder_furnished : furnished.folder = .ok ⟨[(FileName.manifest, .file 0)]⟩ := rfl

theorem load_narrow : Engine.load narrow .empty (Manager.housing .empty) =
    (.ok (Engine.ofSegments .empty narrow ⟨true, 1⟩ []),
      (Manager.housing .empty).update narrow.dataDir furnished) := by
  have hopened : ((Manager.recover narrow).run.run cramped).1 = .ok (⟨true, 1⟩, []) := by decide +kernel
  have hload : Manager.load narrow (Manager.housing .empty) =
      (.ok (⟨true, 1⟩, []), (Manager.housing .empty).update narrow.dataDir furnished) := by
    rw [Volume.load_of_folder folder_narrow, Volume.onDisk, disk_narrow]
    exact Prod.ext hopened rfl
  rw [Engine.load, hload]

/-- An engine on it, with one write. -/
def cornered : Workspace where
  engine := (Engine.ofSegments .empty narrow ⟨true, 1⟩ []).1
  memory := (Engine.ofSegments .empty narrow ⟨true, 1⟩ []).2.insert 0 (.put [1] [7])
  disk := { cramped with folder := .ok ⟨[(FileName.manifest, .file 0)]⟩, contents := furnished.contents }

theorem fits_cornered (event : Event) : Fits (cornered.planned event) := by
  have hplanned : cornered.planned event = cornered.planned .flush ∨
      cornered.planned event = cornered.planned .compact := by
    cases event with
    | compact => exact .inr rfl
    | _ => exact .inl rfl
  have hsmall : ∀ segments ∈ [cornered.planned .flush, cornered.planned .compact],
      (∀ segment ∈ segments, segment.data.length < Layout.offsetSize) ∧
        (Manifest.current 0 (segments.reverse.map Segment.info)).payload.length < UInt32.size := by
    decide +kernel
  obtain ⟨hdata, hmanifest⟩ := hsmall (cornered.planned event) (by simpa using hplanned)
  exact .of_first hdata hmanifest

/-- **Where the path is too long** for the names of a segment, an engine can be opened and written to, and
nothing stands in its way, but it can neither flush, nor compact, nor close. -/
theorem maintenance_fails_overlong : ∃ engine memory written opened,
    (Manager.housing .empty).folder narrow.dataDir = .ok .empty ∧
    Engine.load narrow .empty (Manager.housing .empty) = (.ok (engine, memory), opened) ∧
    engine.closed = false ∧ engine.manager.next = 1 ∧
    engine.upsert memory (.put [1] [7]) = .ok written ∧
    (∀ name, (opened.snapshot narrow.dataDir).holding name ≠ .folder) ∧
    (∀ event, Fits ((Workspace.mk engine written (opened.disk narrow.dataDir)).planned event)) ∧
    (Maintenance.run Maintenance.flush.run engine written opened).1 = .error (.io .nameTooLong) ∧
    (Maintenance.run (Maintenance.compact fun _ => false).run engine written opened).1 =
      .error (.io .nameTooLong) ∧
    (Maintenance.run Maintenance.close.run engine written opened).1 = .error (.io .nameTooLong) := by
  have hspans : Directory.empty.Spans ⟨[(FileName.manifest, .file 0)]⟩ := .of_enter nofun
  have hdisk : ((Manager.housing .empty).update narrow.dataDir furnished).disk narrow.dataDir =
      cornered.disk := by
    rw [Volume.disk_update (by rw [disk_narrow]; rfl) folder_furnished hspans, disk_narrow]
    rfl
  have hrun : ∀ {α : Type} (step : Maintenance.MaintenanceM α),
      (Maintenance.run step.run cornered.engine cornered.memory
        ((Manager.housing .empty).update narrow.dataDir furnished)).1 = (step.run.run cornered).1 := by
    intro α step
    rw [Maintenance.run_eq (rfl : step.run.run _ = _)]
    show (step.run.run ⟨_, _, Volume.disk _ narrow.dataDir⟩).1 = _
    rw [hdisk]
  refine ⟨cornered.engine, _, cornered.memory, _, folder_narrow, load_narrow, rfl, rfl, rfl,
    fun name => ?_, fun event => ?_, ?_, ?_, ?_⟩
  · obtain ⟨hfolder, -⟩ := Volume.folder_update folder_narrow folder_furnished hspans
    rw [Volume.snapshot_of_folder hfolder, Ne, Snapshot.holding_eq_folder]
    rintro ⟨entries, hget⟩
    obtain ⟨entry, hfound, hnode⟩ := Option.map_eq_some_iff.1 hget
    obtain rfl := List.mem_singleton.1 (List.mem_of_find?_eq_some hfound)
    cases hnode
  · rw [hdisk]
    exact fits_cornered event
  · rw [hrun]
    decide +kernel
  · rw [hrun]
    have hfails : ((Maintenance.compact fun _ => false).run.run cornered).1.map (fun _ => ()) =
        .error (.io .nameTooLong) := by decide +kernel
    cases hresult : ((Maintenance.compact fun _ => false).run.run cornered).1 with
    | ok replaced =>
      rw [hresult] at hfails
      cases hfails
    | error error =>
      rw [hresult] at hfails
      cases hfails
      rfl
  · rw [hrun]
    decide +kernel

end Session

end LsmTree
