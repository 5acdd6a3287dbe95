import LsmTree.Proofs.ManagerRuns
import LsmTree.Proofs.Sessions

/-!
# Sessions with a manager

A session that uses a data directory through one manager at a time does step by step what its store does event
by event. The segments that the manager opens or builds have names in the session, numbered in the order of
the store, so that what is committed by positions there is committed by names here.

* **`Store.Event.asStep`** — the step of a session that an event of a store is;
* **`Session.Keeps`** — a session and its store, with one lemma for each event;
* **`Session.Keeps.step`**, **`Session.Keeps.run`** — one step, and one after another;
* **`Session.runs_as_reached_store`**, **`Session.script_as_reached_store`** — the stores of sessions that begin
  with an empty directory, and of scripts, are those that events lead to.
-/

namespace LsmTree

/-! ## Names of segments -/

/-- The name that a session gives to a segment of a manager. -/
def segmentName (name : String) (position : Nat) : String := name ++ "." ++ Text.Decimal.text position

theorem segmentName_injective {name : String} {position other : Nat}
    (h : segmentName name position = segmentName name other) : position = other := by
  have hlist := congrArg String.toList h
  simp only [segmentName, String.toList_append, List.append_cancel_left_eq, Text.Decimal.text,
    String.toList_ofList] at hlist
  have hread := Text.Decimal.read?_digits position
  rw [hlist, Text.Decimal.read?_digits] at hread
  exact (Option.some.inj hread).symm

namespace Store

/-- The step of a session that an event of a store is, for the manager of a name in the directory at a path.
What is built gets the next free number, and numbers that no segment has are not committed. -/
def Event.asStep (name path : String) (store : Store) : Event → Step
  | .load config => .manager name (.load config)
  | .allocate => .manager name .allocate
  | .build entries => .manager name (.build (segmentName name store.segments.length) entries)
  | .commit positions => .manager name (.commit
      ((positions.filter fun position => position < store.segments.length).map (segmentName name)))
  | .drop => .manager name .drop
  | .block other => .file (.makeFolder (FileName.join path other))
  | .unblock other => .file (.removeFolder (FileName.join path other))

/-- An event opens the directory at a path, or makes or takes away a directory there, if it does any of
that. -/
def Event.Uses (path : String) : Event → Prop
  | .load config => config.dataDir = path
  | .block other => Path.Reaches path other
  | .unblock other => Path.Reaches path other ∧ ".." ∉ Path.parts path
  | _ => True

/-- The events that ask the manager for something. -/
def Event.isAsked : Event → Bool
  | .drop | .block _ | .unblock _ => false
  | _ => true

end Store

namespace Store

variable {store : Store} {manager : Manager}

theorem build_of_ok {entries : List Entry} {built : Option Segment} {disk : Disk}
    (h : (Manager.build manager.sync manager.allocate.1 entries).run.run (.ofSnapshot store.dir) =
      (.ok built, disk)) :
    store.build manager entries = (.ok (.info (built.map Segment.info)),
      ⟨disk.snapshot, some manager.allocate.2, store.segments ++ built.toList⟩) := by
  have hsync : manager.allocate.2.sync = manager.sync := rfl
  rw [build]
  dsimp only
  rw [hsync, h]

theorem build_of_error {entries : List Entry} {error : Error} {disk : Disk}
    (h : (Manager.build manager.sync manager.allocate.1 entries).run.run (.ofSnapshot store.dir) =
      (.error error, disk)) :
    store.build manager entries = (.error (.store error),
      { store with dir := disk.snapshot, manager := some manager.allocate.2 }) := by
  have hsync : manager.allocate.2.sync = manager.sync := rfl
  rw [build]
  dsimp only
  rw [hsync, h]

theorem commit_eq {segments : List Segment} :
    store.commit manager segments =
      ((((manager.commit segments).run.run (.ofSnapshot store.dir)).1.mapError .store).map fun _ => .done,
        { store with dir := ((manager.commit segments).run.run (.ofSnapshot store.dir)).2.snapshot }) := by
  rw [commit]
  cases (manager.commit segments).run.run (.ofSnapshot store.dir) with
  | mk result disk => cases result <;> rfl

end Store

/-! ## Sessions and stores -/

/-- The segments of a list have the names of their positions. -/
def Session.Names (name : String) (session : Session) (segments : List Segment) : Prop :=
  ∀ position segment, segments[position]? = some segment → ∃ handle,
    session.segments.get? (segmentName name position) = some handle ∧ handle.segment = segment

/-- A session works in the directory at a path, with the manager of a name; and so does a store in the
directory alone. -/
structure Session.Keeps (name path : String) (session : Session) (store : Store) : Prop where
  shadowed : session.volume.ShadowedBy path (.ofSnapshot store.dir)
  manager : session.managers.get? name = store.manager.map fun manager => (path, manager)
  named : session.Names name store.segments
  replaced : session.replaced = []

/-- A session after a step, with its answer, and a store after an event, with the answer to that. -/
structure Session.Obeys (name path : String) (event : Store.Event) (told : Except StepFault Answer × Session)
    (answered : Except StepFault Answer × Store) : Prop where
  alike : event.isAsked = true → Alike path told.1 answered.1
  keeps : told.2.Keeps name path answered.2

namespace Session

variable {name path : String} {session : Session} {store : Store} {α : Type}

theorem releaseFiles_of_nil (h : session.replaced = []) : session.releaseFiles = session := by
  obtain ⟨volume, memory, tables, cursors, builders, segments, managers, engines, replaced⟩ := session
  cases (show replaced = [] from h)
  rfl

/-- **Naming the segments** of a manager changes no more than names. -/
theorem names_nameAll (name path : String) (session : Session) (segments : List Segment) (start : Nat) :
    ∃ memory named, ((ManagerStep.nameAll name path start segments).run session).2 =
        { session with memory, segments := named } ∧
      (∀ other, (∀ position, start ≤ position → other ≠ segmentName name position) →
        Named.get? named other = session.segments.get? other) ∧
      ∀ position segment, segments[position]? = some segment → ∃ handle,
        Named.get? named (segmentName name (start + position)) = some handle ∧
          handle.segment = segment := by
  induction segments generalizing session start with
  | nil => exact ⟨_, _, rfl, fun _ _ => rfl, fun _ _ hnone => nomatch hnone⟩
  | cons segment rest ih =>
    obtain ⟨memory, named, hrun, hothers, hnamed⟩ := ih
      { session with
        memory := (session.memory.adopt path segment).2
        segments := session.segments.put (segmentName name start) (session.memory.adopt path segment).1 }
      (start + 1)
    have hput (other : String) : Named.get? (session.segments.put (segmentName name start)
        (session.memory.adopt path segment).1) other =
          if other = segmentName name start then some (session.memory.adopt path segment).1
          else session.segments.get? other := Named.get?_put _ _ _ _
    refine ⟨memory, named, hrun, fun other hother => ?_, fun position found hfound => ?_⟩
    · rw [hothers other fun position hle => hother position (by omega)]
      exact (hput other).trans (if_neg (hother start (Nat.le_refl _)))
    · cases position with
      | zero =>
        -- The names after it are other ones, so the first segment keeps its own.
        have hfirst := hothers (segmentName name start) fun position hle hsame => by
          have := segmentName_injective hsame
          omega
        obtain rfl : segment = found := by simpa using hfound
        exact ⟨_, hfirst.trans ((hput _).trans (if_pos rfl)), rfl⟩
      | succ position =>
        obtain ⟨handle, hget, hsegment⟩ := hnamed position found (by simpa using hfound)
        refine ⟨handle, ?_, hsegment⟩
        rw [show start + (position + 1) = start + 1 + position by omega]
        exact hget

namespace Names

variable {segments : List Segment} {position : Nat}

theorem nil : session.Names name [] := fun _ _ hnone => nomatch hnone

/-- What is committed by positions is committed by names. -/
theorem pick (h : session.Names name store.segments) (positions : List Nat) : ∃ handles,
    List.Forall₂ (fun name handle => session.segments.get? name = some handle)
        ((positions.filter fun position => position < store.segments.length).map (segmentName name)) handles ∧
      handles.map Handle.segment = store.pick positions := by
  induction positions with
  | nil => exact ⟨[], .nil, rfl⟩
  | cons position rest ih =>
    obtain ⟨handles, hhandles, hpicked⟩ := ih
    rw [Store.pick] at hpicked ⊢
    cases hsegment : store.segments[position]? with
    | none =>
      have hge : ¬ position < store.segments.length := by simpa using hsegment
      rw [List.filter_cons_of_neg (by simpa using hge), List.filterMap_cons_none hsegment]
      exact ⟨handles, hhandles, hpicked⟩
    | some segment =>
      obtain ⟨handle, hget, rfl⟩ := h position segment hsegment
      have hlt : position < store.segments.length := (List.getElem?_eq_some_iff.1 hsegment).1
      rw [List.filter_cons_of_pos (by simpa using hlt), List.map_cons, List.filterMap_cons_some hsegment]
      exact ⟨handle :: handles, .cons hget hhandles, congrArg (_ :: ·) hpicked⟩

/-- A name that no segment has may be taken away. -/
theorem erase (h : session.Names name segments) (hle : segments.length ≤ position) :
    ({ session with segments := session.segments.erase (segmentName name position) } : Session).Names name
      segments := by
  intro other segment hsegment
  obtain ⟨handle, hget, hsame⟩ := h other segment hsegment
  have hlt := (List.getElem?_eq_some_iff.1 hsegment).1
  refine ⟨handle, (Named.get?_erase _ _ _).trans ?_, hsame⟩
  rw [if_neg fun hname => ?_, hget]
  have := segmentName_injective hname
  omega

/-- One more segment gets the next name. -/
theorem put (h : session.Names name segments) (handle : Handle) :
    ({ session with segments := session.segments.put (segmentName name segments.length) handle } :
      Session).Names name (segments ++ [handle.segment]) := by
  intro other segment hsegment
  have hput := Named.get?_put session.segments (segmentName name segments.length) (segmentName name other) handle
  rw [List.getElem?_append] at hsegment
  split at hsegment
  · next hlt =>
    obtain ⟨held, hget, hsame⟩ := h other segment hsegment
    refine ⟨held, hput.trans ?_, hsame⟩
    rw [if_neg fun hname => ?_, hget]
    have := segmentName_injective hname
    omega
  · next hge =>
    rw [List.getElem?_singleton] at hsegment
    split at hsegment
    · next hzero =>
      obtain rfl : other = segments.length := by omega
      exact ⟨handle, hput.trans (if_pos rfl), Option.some.inj hsegment⟩
    · cases hsegment

end Names

theorem run_tryOnDisk (path : String) (session : Session) (operation : DiskM α) :
    (tryOnDisk path operation).run.run session =
    ((session.volume.onDisk path operation.run).1.mapError .store,
      { session with volume := (session.volume.onDisk path operation.run).2 }) := by
  show (ofExcept (session.volume.onDisk path operation.run).1).run.run
    { session with volume := (session.volume.onDisk path operation.run).2 } = _
  exact run_ofExcept _

/-- What committing needs of names: each has its segment. -/
theorem run_objects {names : List String} {handles : List Handle}
    (h : List.Forall₂ (fun name handle => session.segments.get? name = some handle) names handles) :
    (names.mapM (object segments)).run.run session = (.ok handles, session) := by
  induction h with
  | nil => rfl
  | cons hname _ ih =>
    rw [List.mapM_cons]
    refine (run_bind_of_ok (run_object hname)).trans ?_
    exact (run_bind_of_ok ih).trans rfl

theorem run_build {manager : Manager} {segment : String} {entries : List Entry}
    (hmanager : session.managers.get? name = some (path, manager)) (hreplaced : session.replaced = []) :
    ((ManagerStep.build segment entries).run name).run.run session =
      (do
        match ← tryOnDisk path (Manager.build manager.sync manager.allocate.1 entries) with
        | none => return .info none
        | some built =>
          nameSegment segment (← adopt path built)
          return .info (some built.info) : SessionM Answer).run.run { session with
        segments := session.segments.erase segment
        managers := session.managers.put name (path, manager.allocate.2) } := by
  have hdrop : (liftM (dropSegment segment) : SessionM Unit).run.run session =
      (.ok (), { session with segments := session.segments.erase segment }) :=
    congrArg (Prod.mk (Except.ok ()))
      (releaseFiles_of_nil
        (show Session.replaced { session with segments := session.segments.erase segment } = [] from hreplaced))
  exact (run_bind_of_ok (run_object hmanager)).trans ((run_bind_of_ok hdrop).trans rfl)

/-- **Opening a directory**, after the manager that has the name was let go. -/
theorem run_load_manager (config : Config) : ((ManagerStep.load config).run name).run.run session =
    (let (result, volume) := Manager.load config session.volume
     (do let (manager, segments) ← ofExcept result
         ManagerStep.keep name config.dataDir manager
         ManagerStep.nameAll name config.dataDir 0 segments
         return .manager manager.next (segments.map Segment.info) : SessionM Answer).run.run
       { session with managers := session.managers.erase name, volume }) := rfl

theorem run_load_manager_of_error {config : Config} {error : Error} {volume : Volume}
    (hload : Manager.load config session.volume = (.error error, volume)) :
    ((ManagerStep.load config).run name).run.run session =
      (.error (.store error), { session with managers := session.managers.erase name, volume }) := by
  rw [run_load_manager, hload]
  rfl

theorem run_load_manager_of_ok {config : Config} {manager : Manager} {segments : List Segment}
    {volume : Volume} {after : Session} (hconfig : config.dataDir = path)
    (hload : Manager.load config session.volume = (.ok (manager, segments), volume))
    (hnames : ((ManagerStep.nameAll name path 0 segments).run { session with
      managers := (session.managers.erase name).put name (path, manager), volume }).2 = after) :
    ((ManagerStep.load config).run name).run.run session =
      (.ok (.manager manager.next (segments.map Segment.info)), after) := by
  subst hconfig hnames
  rw [run_load_manager, hload]
  rfl

namespace Keeps

variable (h : session.Keeps name path store)
include h

theorem managerless (hmanager : store.manager = none) : session.managers.get? name = none := by
  rw [h.manager, hmanager]
  rfl

theorem managed {manager : Manager} (hmanager : store.manager = some manager) :
    session.managers.get? name = some (path, manager) := by
  rw [h.manager, hmanager]
  rfl

theorem allocate : Obeys name path .allocate ((ManagerStep.allocate.run name).run.run session)
    (store.step .allocate) := by
  rw [Store.step, Store.withManager]
  cases hmanager : store.manager with
  | none =>
    have hmissing : (ManagerStep.allocate.run name).run.run session = (.error .noObject, session) :=
      run_bind_of_error (run_object_none (h.managerless hmanager))
    rw [hmissing]
    exact ⟨fun _ => .of_eq rfl, h⟩
  | some manager =>
    have hrun : (ManagerStep.allocate.run name).run.run session =
        (.ok (.number manager.allocate.1.toNat), { session with
          managers := session.managers.put name (path, manager.allocate.2) }) :=
      (run_bind_of_ok (run_object (h.managed hmanager))).trans rfl
    rw [hrun]
    refine ⟨fun _ => .of_eq rfl, { h with manager := ?_ }⟩
    exact (Named.get?_put _ _ _ _).trans (if_pos rfl)

theorem commit (positions : List Nat) : Obeys name path (.commit positions)
    (((ManagerStep.commit ((positions.filter fun position => position < store.segments.length).map
      (segmentName name))).run name).run.run session) (store.step (.commit positions)) := by
  rw [Store.step, Store.withManager]
  cases hmanager : store.manager with
  | none =>
    have hmissing (names : List String) :
        ((ManagerStep.commit names).run name).run.run session = (.error .noObject, session) :=
      run_bind_of_error (run_object_none (h.managerless hmanager))
    rw [hmissing]
    exact ⟨fun _ => .of_eq rfl, h⟩
  | some manager =>
    obtain ⟨handles, hhandles, hpicked⟩ := h.named.pick positions
    have hrun : ((ManagerStep.commit ((positions.filter fun position => position < store.segments.length).map
        (segmentName name))).run name).run.run session =
        (do tryOnDisk path (manager.commit (handles.map Handle.segment)); return .done :
          SessionM Answer).run.run session :=
      (run_bind_of_ok (run_object (h.managed hmanager))).trans (run_bind_of_ok (run_objects hhandles))
    obtain ⟨halike, hshadowed⟩ := h.shadowed.tryOnDisk fun _ =>
      Manager.mirrors_commit manager (store.pick positions)
    rw [hrun, hpicked, run_map (tryOnDisk path _) fun _ => Answer.done, run_tryOnDisk]
    dsimp only
    rw [Store.commit_eq]
    exact ⟨fun _ => (halike.mapError _).map _, { h with shadowed := hshadowed }⟩

theorem build (entries : List Entry) : Obeys name path (.build entries)
    (((ManagerStep.build (segmentName name store.segments.length) entries).run name).run.run session)
    (store.step (.build entries)) := by
  rw [Store.step, Store.withManager]
  cases hmanager : store.manager with
  | none =>
    have hmissing (segment : String) :
        ((ManagerStep.build segment entries).run name).run.run session = (.error .noObject, session) :=
      run_bind_of_error (run_object_none (h.managerless hmanager))
    rw [hmissing]
    exact ⟨fun _ => .of_eq rfl, h⟩
  | some manager =>
    obtain ⟨halike, hshadowed⟩ := h.shadowed.tryOnDisk fun _ =>
      Manager.mirrors_build manager.sync manager.allocate.1 entries
    have hkept : ({ session with
        segments := session.segments.erase (segmentName name store.segments.length)
        managers := session.managers.put name (path, manager.allocate.2)
        volume := (session.volume.onDisk path (Manager.build manager.sync manager.allocate.1 entries).run).2 } :
        Session).Keeps name path { store with
          dir := ((Manager.build manager.sync manager.allocate.1 entries).run.run
            (.ofSnapshot store.dir)).2.snapshot
          manager := some manager.allocate.2 } :=
      { shadowed := hshadowed
        manager := (Named.get?_put _ _ _ _).trans (if_pos rfl)
        named := h.named.erase (Nat.le_refl _)
        replaced := h.replaced }
    have htry := run_tryOnDisk path ({ session with
      segments := session.segments.erase (segmentName name store.segments.length)
      managers := session.managers.put name (path, manager.allocate.2) } : Session)
      (Manager.build manager.sync manager.allocate.1 entries)
    rw [run_build (h.managed hmanager) h.replaced]
    dsimp only at htry ⊢
    cases hbuild : session.volume.onDisk path (Manager.build manager.sync manager.allocate.1 entries).run with
    | mk result volume =>
      cases hstore : (Manager.build manager.sync manager.allocate.1 entries).run.run (.ofSnapshot store.dir) with
      | mk result' disk =>
        rw [hbuild, hstore] at halike hkept
        rw [hbuild] at htry
        rcases halike.elim with ⟨built, rfl, rfl⟩ | ⟨error, other, rfl, rfl⟩
        · rw [run_bind_of_ok htry, Store.build_of_ok hstore]
          cases built with
          | none =>
            refine ⟨fun _ => .of_eq rfl, { hkept with named := ?_ }⟩
            rw [show store.segments ++ (none : Option Segment).toList = store.segments from List.append_nil _]
            exact hkept.named
          | some segment =>
            exact ⟨fun _ => .of_eq rfl, { hkept with
              named := hkept.named.put (session.memory.adopt path segment).1 }⟩
        · rw [run_bind_of_error htry, Store.build_of_error hstore]
          exact ⟨fun _ => (halike.mapError StepFault.store).map fun _ => Answer.done, hkept⟩

theorem load {config : Config} (hconfig : config.dataDir = path) : Obeys name path (.load config)
    (((ManagerStep.load config).run name).run.run session) (store.step (.load config)) := by
  obtain ⟨halike, hshadowed⟩ := h.shadowed.load hconfig
  rw [Store.step, Store.load]
  cases hload : Manager.load config session.volume with
  | mk result volume =>
    cases hrecover : (Manager.recover config).run.run (.ofSnapshot store.dir) with
    | mk result' disk =>
      rw [hload, hrecover] at halike hshadowed
      rcases halike.elim with ⟨⟨manager, segments⟩, rfl, rfl⟩ | ⟨error, other, rfl, rfl⟩
      · obtain ⟨memory, named, hnames, -, hnamed⟩ := names_nameAll name path
          { session with
            managers := (session.managers.erase name).put name (path, manager), volume } segments 0
        rw [run_load_manager_of_ok hconfig hload hnames]
        refine ⟨fun _ => .of_eq rfl, ?_⟩
        exact {
          shadowed := hshadowed
          manager := (Named.get?_put _ _ _ _).trans (if_pos rfl)
          named := fun position segment hsegment => by
            have hhandle := hnamed position segment hsegment
            rwa [Nat.zero_add] at hhandle
          replaced := h.replaced }
      · rw [run_load_manager_of_error hload]
        refine ⟨fun _ => (halike.mapError StepFault.store).map fun _ => Answer.done, ?_⟩
        exact {
          shadowed := hshadowed
          manager := (Named.get?_erase _ _ _).trans (if_pos rfl)
          named := .nil
          replaced := h.replaced }

theorem drop : Obeys name path .drop ((ManagerStep.drop.run name).run.run session) (store.step .drop) := by
  refine ⟨fun hasked => absurd hasked Bool.false_ne_true, ?_⟩
  cases hmanager : store.manager with
  | none =>
    have hmissing : (ManagerStep.drop.run name).run.run session = (.error .noObject, session) :=
      run_bind_of_error (run_object_none (h.managerless hmanager))
    rw [hmissing]
    exact { h with manager := h.managerless hmanager, named := .nil }
  | some manager =>
    have hfound : (ManagerStep.drop.run name).run.run session = _ :=
      run_bind_of_ok (run_object (h.managed hmanager))
    rw [hfound]
    exact { h with manager := (Named.get?_erase _ _ _).trans (if_pos rfl), named := .nil }

/-! ### Directories in the way -/

theorem change {volume : Volume} {changed : Except OsError Directory}
    (hshadowed : volume.ShadowedBy path (.ofSnapshot { store.dir with
      names := changed.toOption.getD store.dir.names })) :
    ({ session with volume } : Session).Keeps name path (store.change changed).2 := by
  cases changed with
  | error cause => exact { h with shadowed := hshadowed }
  | ok names => exact { h with shadowed := hshadowed }

theorem block {other : String} (hname : Path.Reaches path other) : Obeys name path (.block other)
    ((FileStep.makeFolder (FileName.join path other)).run.run.run session) (store.step (.block other)) := by
  rw [run_file, Store.step]
  exact ⟨fun hasked => absurd hasked Bool.false_ne_true, h.change (h.shadowed.makeAll hname)⟩

theorem unblock {other : String} (hname : Path.Reaches path other) (hstraight : ".." ∉ Path.parts path) :
    Obeys name path (.unblock other)
      ((FileStep.removeFolder (FileName.join path other)).run.run.run session)
      (store.step (.unblock other)) := by
  rw [run_file, Store.step, FileStep.apply, FileStep.change_snd]
  exact ⟨fun hasked => absurd hasked Bool.false_ne_true, h.change (h.shadowed.removeFolder hname hstraight)⟩

end Keeps

/-! ## Runs -/

/-- No segment is replaced, so no files are taken away. -/
theorem Obeys.releaseFiles {event : Store.Event} {told : Except StepFault Answer × Session}
    {answered : Except StepFault Answer × Store} (h : Obeys name path event told answered) :
    Obeys name path event (told.1, told.2.releaseFiles) answered := by
  rw [releaseFiles_of_nil h.keeps.replaced]
  exact h

/-- **One step.** -/
theorem Keeps.step {event : Store.Event} (h : session.Keeps name path store) (huses : event.Uses path) :
    Obeys name path event ((event.asStep name path store).run.run session) (store.step event) := by
  cases event with
  | load config => exact (h.load huses).releaseFiles
  | allocate => exact h.allocate.releaseFiles
  | build entries => exact (h.build entries).releaseFiles
  | commit positions => exact (h.commit positions).releaseFiles
  | drop => exact h.drop.releaseFiles
  | block other => exact (h.block huses).releaseFiles
  | unblock other => exact (h.unblock huses.1 huses.2).releaseFiles

end Session

/-- The steps that events are, one after the other. -/
def Store.asSteps (name path : String) (store : Store) : List Store.Event → List Step
  | [] => []
  | event :: rest => event.asStep name path store :: (store.step event).2.asSteps name path rest

namespace Session

variable {name path : String} {session : Session} {store : Store} {volume : Volume} {events : List Store.Event}

/-- Each event that asks for something is answered by a session as it is by a store. -/
def Complies (path : String) (told : List (Except StepFault Answer))
    (answered : List (Store.Event × Except StepFault Answer)) : Prop :=
  List.Forall₂ (fun told answer => answer.1.isAsked = true → Alike path told answer.2) told answered

/-- **A session runs as its store does**, step by step. -/
theorem Keeps.run (h : session.Keeps name path store) (huses : ∀ event ∈ events, event.Uses path) :
    Complies path ((take (store.asSteps name path events)).run session).1 (store.run events).1 ∧
      ((take (store.asSteps name path events)).run session).2.Keeps name path (store.run events).2 := by
  induction events generalizing session store with
  | nil => exact ⟨.nil, h⟩
  | cons event rest ih =>
    obtain ⟨hevent, hrest⟩ := List.forall_mem_cons.1 huses
    have hobeys := h.step hevent
    obtain ⟨halike, hkeeps⟩ := ih hobeys.keeps hrest
    rw [Store.asSteps, run_take_cons]
    exact ⟨.cons hobeys.alike halike, hkeeps⟩

end Session

/-! ## Where sessions begin -/

namespace Store

/-- Directories can be put under any names, one after the other. -/
theorem reached_folders {names : List String} (hnodup : names.Nodup) (contents : Contents) : ∃ ledger,
    Reached ⟨⟨⟨names.map fun name => (name, .folder [])⟩, contents⟩, none, []⟩ ledger := by
  induction names with
  | nil => exact ⟨.empty, .start⟩
  | cons name rest ih =>
    obtain ⟨hfresh, hrest⟩ := List.nodup_cons.1 hnodup
    obtain ⟨ledger, hreached⟩ := ih hrest
    have hmade := Directory.makeFolder_folders hfresh
    have hstep := hreached.step (.block name)
    rw [step, hmade] at hstep
    exact ⟨_, hstep⟩

/-- **Names that are too long** can all be taken by directories. -/
theorem reached_shaded (room : Option Nat) (contents : Contents) : ∃ ledger,
    Reached ⟨Snapshot.shaded room ⟨.empty, contents⟩, none, []⟩ ledger := by
  have hnodup := FileName.nodup_all.filter fun name => ¬ fitsIn room name
  exact reached_folders hnodup contents

end Store

namespace Session

variable {name path : String} {volume : Volume} {events : List Store.Event}

theorem keeps_start (hfolder : volume.folder path = .ok .empty) :
    ({ Session.empty with volume } : Session).Keeps name path
      ⟨Snapshot.shaded (Path.room? path) ⟨.empty, volume.contents⟩, none, []⟩ where
  shadowed := .of_folder hfolder
  manager := rfl
  named := .nil
  replaced := rfl

/-- **The sessions on a directory that is empty at first** run as stores that events lead to from an empty
directory. Where the path leaves room for all names, no other events come before those of the session. -/
theorem runs_as_reached_store (hfolder : volume.folder path = .ok .empty)
    (huses : ∀ event ∈ events, event.Uses path) : ∃ start ledger, Store.Reached start ledger ∧
      (Path.room? path = none → start = ⟨⟨.empty, volume.contents⟩, none, []⟩) ∧
      Complies path ((take (start.asSteps name path events)).run { Session.empty with volume }).1
        (start.run events).1 ∧
      ((take (start.asSteps name path events)).run { Session.empty with volume }).2.Keeps name path
        (start.run events).2 := by
  obtain ⟨ledger, hreached⟩ := Store.reached_shaded (Path.room? path) volume.contents
  refine ⟨_, ledger, hreached, fun hroom => ?_, (keeps_start hfolder).run huses⟩
  rw [hroom, Snapshot.shaded_none]

/-- **A script that makes its directory** and uses it with one manager is answered as such a store is. -/
theorem script_as_reached_store (hmade : Volume.empty.makeAll path = (.ok (), volume))
    (hfolder : volume.folder path = .ok .empty) (huses : ∀ event ∈ events, event.Uses path) :
    ∃ told start ledger, Store.Reached start ledger ∧
      (Path.room? path = none → start = ⟨⟨.empty, volume.contents⟩, none, []⟩) ∧
      script (.file (.makeFolder path) :: start.asSteps name path events) = .ok .done :: told ∧
      Complies path told (start.run events).1 := by
  obtain ⟨start, ledger, hreached, hstart, hcomplies, -⟩ := runs_as_reached_store hfolder huses
  exact ⟨_, start, ledger, hreached, hstart, script_makeFolder hmade _, hcomplies⟩

end Session

end LsmTree
