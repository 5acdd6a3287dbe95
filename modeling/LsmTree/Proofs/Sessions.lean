import LsmTree.Proofs.PlacedFolders
import LsmTree.Proofs.Refinement
import LsmTree.Proofs.SessionObjects
import LsmTree.Session.Step

/-!
# Sessions on one directory

A session that works in one data directory, with one engine and the cursors made on it, does step by step what
its world does event by event: it answers the same, and has the same files, tables and cursors afterwards. So
what holds of the runs of worlds holds of sessions, wherever the directory is. If its path leaves no room for
some of the names of files, the world has directories under those names from the start.

* **`Event.asStep`** — the step of a session that an event is;
* **`Session.Carries`** — a session and its world, with one lemma for each event;
* **`Session.Carries.step`**, **`Session.Carries.run`** — one step, and one after another;
* **`Session.runs_as_reached_world`** — the worlds of sessions that begin with an empty directory are those
  that events lead to, and by **`Session.script_as_reached_world`** so are those of scripts.
-/

namespace LsmTree

/-! ## Events as steps -/

/-- The step of a session that an event is, for the engine of a name in the directory at a path. -/
def Event.asStep (name path : String) : Event → Step
  | .load config => .engine name (.load config)
  | .lookup key => .engine name (.lookup key)
  | .range bounds => .engine name (.range bounds)
  | .cursor other bounds => .engine name (.cursor other bounds)
  | .next other => .cursor other (.next 1)
  | .release other => .cursor other .drop
  | .upsert entry => .engine name (.upsert [entry])
  | .flush => .engine name .flush
  | .compact => .engine name .compact
  | .close => .engine name .close
  | .drop => .engine name .drop
  | .crash => .engine name .crash
  | .block other => .file (.makeFolder (FileName.join path other))
  | .unblock other => .file (.removeFolder (FileName.join path other))

/-- An event opens the directory at a path, or makes or takes away a directory there, if it does any of
that. -/
def Event.Uses (path : String) : Event → Prop
  | .load config => config.dataDir = path
  | .block other => Path.Reaches path other
  | .unblock other => Path.Reaches path other ∧ ".." ∉ Path.parts path
  | _ => True

/-- The events that ask the engine or a cursor for something. The others are not for the engine, or let go of
what may not be there, and what they answer is of no account. -/
def Event.isAsked : Event → Bool
  | .release _ | .drop | .crash | .block _ | .unblock _ => false
  | _ => true

/-- An answer as a session gives it: a cursor is asked for a number of entries at once. -/
def Answer.told : Answer → Answer
  | .lookup entry => .lookups [entry]
  | answer => answer

/-! ## Running steps of a session -/

namespace Session

variable {name : String} {session after : Session} {α β : Type}

theorem run_bind_of_ok {step : SessionM α} {next : α → SessionM β} {a : α}
    (h : step.run.run session = (.ok a, after)) :
    (step >>= next).run.run session = (next a).run.run after := by
  rw [ExceptT.run_bind, StateT.run_bind, h]
  rfl

theorem run_bind_of_error {step : SessionM α} {next : α → SessionM β} {fault : StepFault}
    (h : step.run.run session = (.error fault, after)) :
    (step >>= next).run.run session = (.error fault, after) := by
  rw [ExceptT.run_bind, StateT.run_bind, h]
  rfl

theorem run_get_bind (next : Session → SessionM α) :
    (get >>= next).run.run session = (next session).run.run session := rfl

theorem run_map (step : SessionM α) (f : α → β) :
    (do let a ← step; return f a : SessionM β).run.run session =
      ((step.run.run session).1.map f, (step.run.run session).2) := by
  cases hrun : step.run.run session with
  | mk result after =>
    cases result with
    | error fault => exact run_bind_of_error hrun
    | ok a => exact run_bind_of_ok hrun

theorem run_ofExcept (result : Except Error α) :
    (ofExcept result).run.run session = (result.mapError .store, session) := by
  cases result <;> rfl

theorem run_object_eq (kind : Session → Named α) : (object kind name).run.run session =
    (match (kind session).get? name with
      | some value => pure value
      | none => throw .noObject : SessionM α).run.run session := rfl

theorem run_object {kind : Session → Named α} {value : α} (h : (kind session).get? name = some value) :
    (object kind name).run.run session = (.ok value, session) := by
  rw [run_object_eq, h]
  rfl

theorem run_object_none {kind : Session → Named α} (h : (kind session).get? name = none) :
    (object kind name).run.run session = (.error .noObject, session) := by
  rw [run_object_eq, h]
  rfl

/-- **A step of maintenance** with the engine of a name. -/
theorem run_maintain {step : Maintenance.MaintenanceM α} {engine : Engine} {result : Except Error α}
    {last : Maintenance.Workspace} (hengine : session.engines.get? name = some engine)
    (hrun : step.run.run ⟨engine, session.memory, session.volume.disk engine.config.dataDir⟩ =
      (result, last)) :
    (EngineStep.maintain name step).run.run session = (result.mapError .store, { session with
      memory := last.memory
      volume := session.volume.update engine.config.dataDir last.disk
      engines := session.engines.put name last.engine }) := by
  refine (run_bind_of_ok (run_object hengine)).trans ?_
  rw [← run_ofExcept]
  refine (run_get_bind _).trans ?_
  rw [Maintenance.run_eq hrun]
  rfl

/-- **Opening a directory**, after the engine that has the name was let go. -/
theorem run_load (config : Config) : ((EngineStep.load config).run name).run.run session =
    (fun discarded : Session =>
      let (result, volume) := Engine.load config discarded.memory discarded.volume
      (do let (engine, memory) ← ofExcept result
          modify fun session => { session with memory, engines := session.engines.put name engine }
          return .engine engine.generations engine.manager.next : SessionM Answer).run.run
        { discarded with volume }) ((EngineStep.discard name).run session).2 := rfl

theorem run_load_of_error {config : Config} {error : Error} {volume : Volume}
    (hdiscard : ((EngineStep.discard name).run session).2 = after)
    (hload : Manager.load config after.volume = (.error error, volume)) :
    ((EngineStep.load config).run name).run.run session = (.error (.store error), { after with volume }) := by
  rw [run_load, hdiscard]
  dsimp only
  rw [Engine.load, hload]
  rfl

theorem run_load_of_ok {config : Config} {manager : Manager} {segments : List Segment} {volume : Volume}
    {engine : Engine} {memory : Memory} (hdiscard : ((EngineStep.discard name).run session).2 = after)
    (hload : Manager.load config after.volume = (.ok (manager, segments), volume))
    (hengine : Engine.ofSegments after.memory config manager segments = (engine, memory)) :
    ((EngineStep.load config).run name).run.run session =
      (.ok (.engine engine.generations engine.manager.next),
        { after with volume, memory, engines := after.engines.put name engine }) := by
  rw [run_load, hdiscard]
  dsimp only
  rw [Engine.load, hload]
  dsimp only
  rw [hengine]
  rfl

/-- **A compaction** goes by which segments are held when it begins. -/
theorem run_compact {inUse : Handle → Bool} (hheld : session.isHeld = inUse) :
    (EngineStep.compact.run name).run.run session = (do
      let replaced ← EngineStep.maintain name (Maintenance.compact inUse)
      modify fun session => { session with replaced := session.replaced ++ replaced }
      return .done : SessionM Answer).run.run session := by
  subst hheld
  rw [EngineStep.run]
  exact run_get_bind _

theorem run_file (step : FileStep) : step.run.run.run session =
    ((step.apply session.volume).1.mapError .files,
      { session with volume := (step.apply session.volume).2 }) := by
  refine (run_get_bind _).trans ?_
  cases step.apply session.volume with
  | mk result volume => cases result <;> rfl

end Session

theorem FileStep.change_snd {volume : Volume} {changed : Except OsError Volume} :
    (change volume changed).2 = changed.toOption.getD volume := by
  cases changed <;> rfl

/-! ## Sessions and worlds -/

/-- A session works in the directory at a path, with the engine of a name and the cursors made on it, and with
nothing else; and so does a world in the directory alone. -/
structure Session.Carries (name path : String) (session : Session) (world : World) : Prop where
  shadowed : session.volume.ShadowedBy path (.ofSnapshot world.dir)
  memory : session.memory = world.memory
  engine : session.engines.get? name = world.engine
  engine_at : ∀ engine, world.engine = some engine → engine.At path
  cursors : session.cursors.Are world.cursors
  unnamed : session.segments = []
  replaced : session.replaced = world.replaced
  replaced_at : ∀ handle ∈ world.replaced, handle.dir = path

/-- A session after a step, with its answer, and a world after an event, with the answer to that. -/
structure Session.Follows (name path : String) (event : Event) (told : Except StepFault Answer × Session)
    (answered : Except StepFault Answer × World) : Prop where
  alike : event.isAsked = true → Alike path told.1 (answered.1.map Answer.told)
  carries : told.2.Carries name path answered.2

variable {name path : String} {session : Session} {world : World} {α β : Type}

theorem World.ask_map (question : Engine → Except Error α) (f : α → β) :
    (world.ask fun engine => f <$> question engine) = (world.ask question).map f := by
  cases hengine : world.engine with
  | none =>
    rw [ask, ask, hengine]
    rfl
  | some engine =>
    rw [ask, ask, hengine]
    dsimp only
    cases question engine <;> rfl

namespace Session

/-- Files of segments are taken away one segment after the other. -/
theorem shadowed_removed {volume : Volume} {shadow : Disk} (handles : List Handle)
    (hplaced : ∀ handle ∈ handles, handle.dir = path) (h : volume.ShadowedBy path shadow) :
    (handles.foldl (fun volume handle =>
        (volume.onDisk handle.dir (Segment.remove handle.segment.generation)).2) volume).ShadowedBy path
      ((Manager.removeAll (handles.map fun handle => handle.segment.generation)).run shadow).2 := by
  induction handles generalizing volume shadow with
  | nil => exact h
  | cons handle rest ih =>
    obtain ⟨hhandle, hrest⟩ := List.forall_mem_cons.1 hplaced
    have hfirst : (volume.onDisk handle.dir (Segment.remove handle.segment.generation)).2.ShadowedBy path
        ((Segment.remove handle.segment.generation).run shadow).2 := by
      rw [hhandle]
      exact (h.onDisk fun _ => Segment.mirrors_remove _).2
    exact ih hrest hfirst

namespace Carries

variable (h : session.Carries name path world)
include h

theorem isHeld_eq : session.isHeld = world.isHeld := by
  funext handle
  rw [isHeld, World.isHeld, h.unnamed, h.cursors.handles]
  rfl

/-- **The files that nobody holds any more** are taken away in both. -/
theorem releaseFiles : session.releaseFiles.Carries name path world.releaseFiles := by
  have hparts : session.replaced.partition session.isHeld = world.replaced.partition world.isHeld := by
    rw [h.replaced, h.isHeld_eq]
  have hfilter := List.partition_eq_filter_filter (p := world.isHeld) (l := world.replaced)
  refine { h with shadowed := ?_, replaced := congrArg Prod.fst hparts, replaced_at := fun handle hmem => ?_ }
  · show (List.foldl _ session.volume (session.replaced.partition session.isHeld).2).ShadowedBy path _
    rw [hparts]
    refine (shadowed_removed _ (fun handle hmem => ?_) h.shadowed).rebase
    rw [hfilter] at hmem
    exact h.replaced_at handle (List.mem_of_mem_filter hmem)
  · change handle ∈ (world.replaced.partition world.isHeld).1 at hmem
    rw [hfilter] at hmem
    exact h.replaced_at handle (List.mem_of_mem_filter hmem)

/-- Without an engine there is none to be let go. -/
theorem of_engineless (hengine : world.engine = none) :
    session.Carries name path { world with engine := none } :=
  { h with engine := h.engine.trans hengine, engine_at := fun _ hsome => nomatch hsome }

/-- The engine is let go. -/
theorem erase : ({ session with engines := session.engines.erase name } : Session).Carries name path
    { world with engine := none } :=
  { h with
    engine := by
      show Named.get? (Named.erase session.engines name) name = none
      rw [Named.get?_erase, if_pos rfl]
    engine_at := fun _ hsome => nomatch hsome }

/-! ### What is asked and written -/

/-- **What the engine is asked** is what the one of the world is asked. -/
theorem run_ask (question : Memory → Engine → Except Error α) (next : α → SessionM β) :
    (do
      let engine ← object engines name
      let answer ← ofExcept (question (← get).memory engine)
      next answer : SessionM β).run.run session =
      match world.ask (question world.memory) with
      | .error fault => (.error fault, session)
      | .ok answer => (next answer).run.run session := by
  cases hengine : world.engine with
  | none =>
    rw [World.ask, hengine]
    exact run_bind_of_error (run_object_none (h.engine.trans hengine))
  | some engine =>
    rw [World.ask, hengine]
    refine (run_bind_of_ok (run_object (h.engine.trans hengine))).trans ?_
    show (ofExcept (question session.memory engine) >>= next).run.run session = _
    rw [h.memory]
    dsimp only
    cases question world.memory engine with
    | error error => rfl
    | ok answer => rfl

theorem lookup (key : Bytes) : Follows name path (.lookup key)
    (((EngineStep.lookup key).run name).run.run session) (world.act (.lookup key)) := by
  have hrun := h.run_ask (fun memory engine => engine.get memory key) fun value => return Answer.value value
  rw [EngineStep.run, hrun, World.act, World.ask_map]
  cases world.ask fun engine => engine.get world.memory key with
  | error fault => exact ⟨fun _ => .of_eq rfl, h⟩
  | ok value => exact ⟨fun _ => .of_eq rfl, h⟩

theorem range (bounds : KeyRange) : Follows name path (.range bounds)
    (((EngineStep.range bounds).run name).run.run session) (world.act (.range bounds)) := by
  have hrun := h.run_ask (fun memory engine => engine.entries memory bounds) fun entries =>
    return Answer.entries entries
  rw [EngineStep.run, hrun, World.act, World.ask_map]
  cases world.ask fun engine => engine.entries world.memory bounds with
  | error fault => exact ⟨fun _ => .of_eq rfl, h⟩
  | ok entries => exact ⟨fun _ => .of_eq rfl, h⟩

theorem cursor (other : String) (bounds : KeyRange) : Follows name path (.cursor other bounds)
    (((EngineStep.cursor other bounds).run name).run.run session) (world.act (.cursor other bounds)) := by
  have hrun := h.run_ask (fun memory engine => engine.range memory bounds) fun merge => do
    modify fun session => { session with cursors := session.cursors.addMerge other merge }
    return Answer.number merge.liveSources
  rw [EngineStep.run, hrun, World.act]
  cases world.ask fun engine => engine.range world.memory bounds with
  | error fault => exact ⟨fun _ => .of_eq rfl, h⟩
  | ok merge => exact ⟨fun _ => .of_eq rfl, { h with cursors := h.cursors.addMerge other merge }⟩

theorem upsert (entry : Entry) : Follows name path (.upsert entry)
    (((EngineStep.upsert [entry]).run name).run.run session) (world.act (.upsert entry)) := by
  have hone : (fun engine : Engine => engine.upsertAll world.memory [entry]) =
      fun engine => engine.upsert world.memory entry := by
    funext engine
    rw [Engine.upsertAll]
    cases engine.upsert world.memory entry <;> rfl
  have hrun := h.run_ask (fun memory engine => engine.upsertAll memory [entry]) fun memory => do
    modify fun session => { session with memory }
    return Answer.done
  rw [EngineStep.run, hrun, World.act, hone]
  cases world.ask fun engine => engine.upsert world.memory entry with
  | error fault => exact ⟨fun _ => .of_eq rfl, h⟩
  | ok memory => exact ⟨fun _ => .of_eq rfl, { h with memory := rfl }⟩

/-! ### Cursors -/

/-- **A cursor is asked for its next entry.** -/
theorem next (other : String) : Follows name path (.next other)
    (CursorStep.apply session other (.next 1)) (world.act (.next other)) := by
  cases hget : world.cursors.get? other with
  | none =>
    rw [CursorStep.next_of_none (h.cursors.get?_of_none hget), World.act, hget]
    exact ⟨fun _ => .of_eq rfl, h⟩
  | some merge =>
    obtain ⟨depth, hcursors⟩ := h.cursors.of_get? hget
    obtain ⟨volume, memory, tables, cursors, builders, segments, managers, engines, replaced⟩ := session
    cases (show cursors = _ from hcursors)
    cases (show memory = _ from h.memory)
    -- However deep the merge lies, it is read as it is.
    have hnext := Source.next_ofMerge world.memory depth merge
    rw [CursorStep.next_of_some (Cursors.get?_ofMerges.trans (congrArg _ hget)), World.act, hget]
    refine ⟨fun _ => .of_eq ?_, { h with cursors := .inr ⟨depth, ?_⟩ }⟩
    · show Except.ok (Answer.lookups [((Source.reader world.memory (depth + 1)).next
        (.ofMerge depth merge)).1]) = _
      rw [hnext]
      rfl
    · show (⟨depth + 1, Named.put _ other ((Source.reader world.memory (depth + 1)).next
        (.ofMerge depth merge)).2⟩ : Cursors) = _
      rw [hnext]
      exact Cursors.put_ofMerges _

/-- **A cursor is let go.** -/
theorem release (other : String) : Follows name path (.release other)
    (CursorStep.apply session other .drop) (world.act (.release other)) := by
  cases hget : world.cursors.get? other with
  | none =>
    rw [CursorStep.drop_of_none (h.cursors.get?_of_none hget), World.act, Named.erase_of_none hget]
    exact ⟨fun hasked => absurd hasked Bool.false_ne_true, h⟩
  | some merge =>
    obtain ⟨depth, hcursors⟩ := h.cursors.of_get? hget
    obtain ⟨volume, memory, tables, cursors, builders, segments, managers, engines, replaced⟩ := session
    cases (show cursors = _ from hcursors)
    rw [CursorStep.drop_of_some (Cursors.get?_ofMerges.trans (congrArg _ hget)), World.act]
    exact ⟨fun hasked => absurd hasked Bool.false_ne_true, { h with cursors := .inr ⟨depth, Cursors.erase_ofMerges⟩ }⟩

/-! ### Maintenance -/

/-- **A step of maintenance** with the engine does what it does with the one of the world. -/
theorem maintain {step : Maintenance.MaintenanceM α}
    (hmirrors : ∀ room origin,
      Mirrors (Maintenance.Workspace.Shadows room origin) (Agree Eq) step.run step.run)
    (hat : ∀ start : Maintenance.Workspace, start.engine.At path →
      Ends step.run start fun _ after => after.engine.At path) :
    Alike path ((EngineStep.maintain name step).run.run session).1 (world.maintain step).1 ∧
      ((EngineStep.maintain name step).run.run session).2.Carries name path (world.maintain step).2 := by
  cases hengine : world.engine with
  | none =>
    have hmissing : (EngineStep.maintain name step).run.run session = (.error .noObject, session) :=
      run_bind_of_error (run_object_none (h.engine.trans hengine))
    rw [hmissing, World.maintain, hengine]
    exact ⟨.of_eq rfl, h⟩
  | some engine =>
    obtain ⟨dir, hdir, hshadows⟩ := h.shadowed
    obtain ⟨hagree, hafter⟩ := hmirrors _ dir ⟨engine, session.memory, session.volume.disk path⟩
      (world.workspace engine) ⟨rfl, h.memory.symm, hshadows⟩
    have hplace := hat (world.workspace engine) (h.engine_at engine hengine)
    have hrun := run_maintain (h.engine.trans hengine) (rfl : step.run.run _ = _)
    rw [(h.engine_at engine hengine).dataDir] at hrun
    rw [hrun, World.maintain_eq step hengine]
    refine ⟨(Alike.of_agree hagree fun hroom => ?_).mapError _, ?_⟩
    · rw [h.shadowed.disk_eq hroom, h.memory]
      rfl
    · exact { h with
        shadowed := (Volume.ShadowedBy.update hdir hafter.disk).rebase
        memory := hafter.memory.symm
        engine := by
          rw [Named.get?_put, if_pos rfl]
          exact congrArg some hafter.engine.symm
        engine_at := fun _ hsome => Option.some.inj hsome ▸ hplace }

/-- A step of maintenance tells no more than that it is done. -/
theorem maintain_done {event : Event} {step : Maintenance.MaintenanceM Unit}
    (hact : world.act event = ((world.maintain step).1.map fun _ => .done, (world.maintain step).2))
    (hmirrors : ∀ room origin,
      Mirrors (Maintenance.Workspace.Shadows room origin) (Agree Eq) step.run step.run)
    (hat : ∀ start : Maintenance.Workspace, start.engine.At path →
      Ends step.run start fun _ after => after.engine.At path) :
    Follows name path event
      ((do EngineStep.maintain name step; return .done : SessionM Answer).run.run session)
      (world.act event) := by
  obtain ⟨halike, hcarries⟩ := h.maintain hmirrors hat
  have htold : ((world.maintain step).1.map fun _ => Answer.done).map Answer.told =
      (world.maintain step).1.map fun _ => Answer.done := by
    cases (world.maintain step).1 <;> rfl
  rw [run_map (EngineStep.maintain name step) fun _ => Answer.done, hact]
  refine ⟨fun _ => ?_, hcarries⟩
  rw [htold]
  exact halike.map _

theorem flush : Follows name path .flush ((EngineStep.flush.run name).run.run session) (world.act .flush) :=
  h.maintain_done rfl (fun _ _ => Maintenance.mirrors_flush) fun _ => Maintenance.at_flush

theorem close : Follows name path .close ((EngineStep.close.run name).run.run session) (world.act .close) :=
  h.maintain_done rfl (fun _ _ => Maintenance.mirrors_close) fun _ => Maintenance.at_close

/-- The segments that a compaction has replaced and that are still held are those of the directory. -/
theorem replaced_placed (inUse : Handle → Bool) :
    ∀ handle ∈ (world.maintain (Maintenance.compact inUse)).1.toOption.getD [], handle.dir = path := by
  cases hengine : world.engine with
  | none =>
    rw [World.maintain, hengine]
    exact fun _ hmem => absurd hmem List.not_mem_nil
  | some engine =>
    have hplaced : (world.workspace engine).engine.At path := h.engine_at engine hengine
    have hat := (Maintenance.at_compact inUse hplaced).2
    rw [World.maintain_eq _ hengine]
    cases hresult : ((Maintenance.compact inUse).run.run (world.workspace engine)).1 with
    | error error => exact fun _ hmem => absurd hmem List.not_mem_nil
    | ok replaced => exact hat replaced hresult

theorem compact : Follows name path .compact ((EngineStep.compact.run name).run.run session)
    (world.act .compact) := by
  obtain ⟨halike, hcarries⟩ := h.maintain (fun _ _ => Maintenance.mirrors_compact world.isHeld)
    fun start hstart => (Maintenance.at_compact world.isHeld hstart).mono fun _ _ hafter => hafter.1
  have hplaced := h.replaced_placed world.isHeld
  rw [run_compact h.isHeld_eq, World.act]
  cases hrun : (EngineStep.maintain name (Maintenance.compact world.isHeld)).run.run session with
  | mk result after =>
    cases hworld : world.maintain (Maintenance.compact world.isHeld) with
    | mk result' last =>
      rw [hrun, hworld] at halike hcarries
      rw [hworld] at hplaced
      rcases halike.elim with ⟨replaced, rfl, rfl⟩ | ⟨fault, other, rfl, rfl⟩
      · rw [run_bind_of_ok hrun]
        exact ⟨fun _ => .of_eq rfl, { hcarries with
          replaced := congrArg (· ++ replaced) hcarries.replaced
          replaced_at := fun handle hmem =>
            (List.mem_append.1 hmem).elim (hcarries.replaced_at handle) (hplaced handle) }⟩
      · rw [run_bind_of_error hrun]
        have hnothing : last.replaced ++ [] = last.replaced := List.append_nil _
        refine ⟨fun _ => halike.map fun _ => Answer.done, { hcarries with replaced := ?_, replaced_at := ?_ }⟩
        · exact hcarries.replaced.trans hnothing.symm
        · intro handle hmem
          exact hcarries.replaced_at handle (hnothing ▸ hmem)

/-! ### Opening and letting go -/

/-- **The engine is let go** after an attempt to close it. -/
theorem discard : ((EngineStep.discard name).run session).2.Carries name path world.discard :=
  (h.maintain (fun _ _ => Maintenance.mirrors_close) fun _ => Maintenance.at_close).2.erase

theorem load {config : Config} (hconfig : config.dataDir = path) : Follows name path (.load config)
    (((EngineStep.load config).run name).run.run session) (world.act (.load config)) := by
  have hcarries := h.discard
  obtain ⟨halike, hshadowed⟩ := hcarries.shadowed.load hconfig
  rw [World.act, World.load]
  cases hload : Manager.load config ((EngineStep.discard name).run session).2.volume with
  | mk result volume =>
    cases hrecover : (Manager.recover config).run.run (.ofSnapshot world.discard.dir) with
    | mk result' disk =>
      rw [hload, hrecover] at halike hshadowed
      rcases halike.elim with ⟨⟨manager, segments⟩, rfl, rfl⟩ | ⟨error, other, rfl, rfl⟩
      · rw [run_load_of_ok rfl hload rfl, hcarries.memory]
        exact ⟨fun _ => .of_eq rfl, { hcarries with
          shadowed := hshadowed
          memory := rfl
          engine := by
            rw [Named.get?_put, if_pos rfl]
            rfl
          engine_at := fun _ hsome => by
            rw [← Option.some.inj hsome, ← hconfig]
            exact Engine.at_ofSegments _ _ _ _ }⟩
      · rw [run_load_of_error rfl hload]
        have htold := (halike.mapError StepFault.store).map fun _ => Answer.done
        exact ⟨fun _ => htold, { hcarries with shadowed := hshadowed }⟩

theorem drop : Follows name path .drop ((EngineStep.drop.run name).run.run session) (world.act .drop) := by
  refine ⟨fun hasked => absurd hasked Bool.false_ne_true, ?_⟩
  cases hengine : world.engine with
  | none =>
    have hmissing : (EngineStep.drop.run name).run.run session = (.error .noObject, session) :=
      run_bind_of_error (run_object_none (h.engine.trans hengine))
    rw [hmissing, World.act, World.discard, World.maintain, hengine]
    exact h.of_engineless hengine
  | some engine =>
    have hfound : (EngineStep.drop.run name).run.run session = _ :=
      run_bind_of_ok (run_object (h.engine.trans hengine))
    rw [hfound]
    exact h.discard

theorem crash : Follows name path .crash ((EngineStep.crash.run name).run.run session)
    (world.act .crash) := by
  refine ⟨fun hasked => absurd hasked Bool.false_ne_true, ?_⟩
  cases hengine : world.engine with
  | none =>
    have hmissing : (EngineStep.crash.run name).run.run session = (.error .noObject, session) :=
      run_bind_of_error (run_object_none (h.engine.trans hengine))
    rw [hmissing]
    exact h.of_engineless hengine
  | some engine =>
    have hfound : (EngineStep.crash.run name).run.run session = _ :=
      run_bind_of_ok (run_object (h.engine.trans hengine))
    rw [hfound]
    exact h.erase

/-! ### Directories in the way -/

theorem change {volume : Volume} {changed : Except OsError Directory}
    (hshadowed : volume.ShadowedBy path (.ofSnapshot { world.dir with
      names := changed.toOption.getD world.dir.names })) :
    ({ session with volume } : Session).Carries name path (world.change changed).2 := by
  cases changed with
  | error cause => exact { h with shadowed := hshadowed }
  | ok names => exact { h with shadowed := hshadowed }

theorem block {other : String} (hname : Path.Reaches path other) : Follows name path (.block other)
    ((FileStep.makeFolder (FileName.join path other)).run.run.run session) (world.act (.block other)) := by
  rw [run_file, World.act]
  exact ⟨fun hasked => absurd hasked Bool.false_ne_true, h.change (h.shadowed.makeAll hname)⟩

theorem unblock {other : String} (hname : Path.Reaches path other) (hstraight : ".." ∉ Path.parts path) :
    Follows name path (.unblock other)
      ((FileStep.removeFolder (FileName.join path other)).run.run.run session)
      (world.act (.unblock other)) := by
  rw [run_file, World.act, FileStep.apply, FileStep.change_snd]
  exact ⟨fun hasked => absurd hasked Bool.false_ne_true, h.change (h.shadowed.removeFolder hname hstraight)⟩

end Carries

/-! ## Runs -/

theorem Follows.releaseFiles {event : Event} {told : Except StepFault Answer × Session}
    {answered : Except StepFault Answer × World} (h : Follows name path event told answered) :
    Follows name path event (told.1, told.2.releaseFiles) (answered.1, answered.2.releaseFiles) :=
  ⟨h.alike, h.carries.releaseFiles⟩

/-- **One step.** -/
theorem Carries.step {event : Event} (h : session.Carries name path world) (huses : event.Uses path) :
    Follows name path event ((event.asStep name path).run.run session) (world.step event) := by
  rw [World.step_eq]
  cases event with
  | load config => exact (h.load huses).releaseFiles
  | lookup key => exact (h.lookup key).releaseFiles
  | range bounds => exact (h.range bounds).releaseFiles
  | cursor other bounds => exact (h.cursor other bounds).releaseFiles
  | next other => exact (h.next other).releaseFiles
  | release other => exact (h.release other).releaseFiles
  | upsert entry => exact (h.upsert entry).releaseFiles
  | flush => exact h.flush.releaseFiles
  | compact => exact h.compact.releaseFiles
  | close => exact h.close.releaseFiles
  | drop => exact h.drop.releaseFiles
  | crash => exact h.crash.releaseFiles
  | block other => exact (h.block huses).releaseFiles
  | unblock other => exact (h.unblock huses.1 huses.2).releaseFiles

/-- Steps, one after the other. -/
def take (steps : List Step) : StateM Session (List (Except StepFault Answer)) := steps.mapM Step.run

theorem run_take_cons (step : Step) (rest : List Step) : (take (step :: rest)).run session =
    ((step.run.run session).1 :: ((take rest).run (step.run.run session).2).1,
      ((take rest).run (step.run.run session).2).2) := by
  rw [take, List.mapM_cons]
  rfl

/-- **A script that makes a directory** goes on with that directory. -/
theorem script_makeFolder {volume : Volume} (h : Volume.empty.makeAll path = (.ok (), volume))
    (steps : List Step) : script (.file (.makeFolder path) :: steps) =
      .ok .done :: ((take steps).run { empty with volume }).1 := by
  have hrun : (Step.file (.makeFolder path)).run.run empty = (.ok .done, { empty with volume }) := by
    have hmade : (FileStep.makeFolder path).run.run.run empty = (.ok .done, { empty with volume }) := by
      rw [run_file, FileStep.apply, show empty.volume = Volume.empty from rfl, h]
      rfl
    exact congrArg (fun told => (told.1, told.2.releaseFiles)) hmade
  show ((take _).run empty).1 = _
  rw [run_take_cons, hrun]

/-- Each event that asks for something is answered by a session as it is by a world. -/
def Answers (path : String) (told : List (Except StepFault Answer))
    (answered : List (Event × Except StepFault Answer)) : Prop :=
  List.Forall₂ (fun told answer => answer.1.isAsked = true → Alike path told (answer.2.map Answer.told))
    told answered

/-- **A session runs as its world does**, step by step. -/
theorem Carries.run {events : List Event} (h : session.Carries name path world)
    (huses : ∀ event ∈ events, event.Uses path) :
    Answers path ((take (events.map (Event.asStep name path))).run session).1 (world.run events).1 ∧
      ((take (events.map (Event.asStep name path))).run session).2.Carries name path
        (world.run events).2 := by
  induction events generalizing session world with
  | nil => exact ⟨.nil, h⟩
  | cons event rest ih =>
    obtain ⟨hevent, hrest⟩ := List.forall_mem_cons.1 huses
    have hfollows := h.step hevent
    obtain ⟨halike, hcarries⟩ := ih hfollows.carries hrest
    rw [List.map_cons, run_take_cons]
    exact ⟨.cons hfollows.alike halike, hcarries⟩

end Session

/-! ## Where sessions begin -/

namespace StoreFile

/-- The files of a generation. -/
def ofGeneration (generation : UInt64) : List StoreFile :=
  [.complete (.segment .data generation), .complete (.segment .index generation),
    .temporary (.segment .data generation), .temporary (.segment .index generation)]

theorem generation_eq {generation other : UInt64} {file : StoreFile} (h : file ∈ ofGeneration generation)
    (h' : file ∈ ofGeneration other) : generation = other := by
  simp only [ofGeneration, List.mem_cons, List.not_mem_nil, or_false] at h h'
  rcases h with rfl | rfl | rfl | rfl <;> simpa using h'

/-- The files of several generations differ. -/
theorem nodup_flatMap_ofGeneration {numbers : List Nat} (hnodup : numbers.Nodup)
    (hsmall : ∀ n ∈ numbers, n < UInt64.size) :
    (numbers.flatMap fun n => ofGeneration (.ofNat n)).Nodup := by
  refine List.nodup_flatMap.2 ⟨fun n _ => by simp [ofGeneration], ?_⟩
  refine hnodup.pairwise_of_forall_ne fun n hn m hm hne => ?_
  intro file hfile hother
  have hsame := congrArg UInt64.toNat (generation_eq hfile hother)
  rw [UInt64.toNat_ofNat_of_lt' (hsmall n hn), UInt64.toNat_ofNat_of_lt' (hsmall m hm)] at hsame
  exact hne hsame

end StoreFile

namespace FileName

theorem nodup_names {numbers : List Nat} (hnodup : numbers.Nodup) (hsmall : ∀ n ∈ numbers, n < UInt64.size) :
    (manifest :: temporary manifest :: numbers.flatMap fun n => ofGeneration (.ofNat n)).Nodup := by
  have hsegments := StoreFile.nodup_flatMap_ofGeneration hnodup hsmall
  have hmanifest (file : StoreFile) (hfile : file = .complete .manifest ∨ file = .temporary .manifest) :
      file ∉ numbers.flatMap fun n => StoreFile.ofGeneration (.ofNat n) := by
    intro hmem
    obtain ⟨n, -, hn⟩ := List.mem_flatMap.1 hmem
    rcases hfile with rfl | rfl <;> simp [StoreFile.ofGeneration] at hn
  have hfiles : (StoreFile.complete .manifest :: .temporary .manifest ::
      numbers.flatMap fun n => StoreFile.ofGeneration (.ofNat n)).Nodup :=
    List.nodup_cons.2 ⟨fun hmem => (List.mem_cons.1 hmem).elim nofun (hmanifest _ (.inl rfl)),
      List.nodup_cons.2 ⟨hmanifest _ (.inr rfl), hsegments⟩⟩
  have hnames := hfiles.map StoreFile.name_injective
  rw [List.map_cons, List.map_cons, List.map_flatMap] at hnames
  exact hnames

/-- **Each file has a name of its own.** -/
theorem nodup_all : all.Nodup := nodup_names List.nodup_range fun _ hn => List.mem_range.1 hn

end FileName

/-- A directory is made beside others. -/
theorem Directory.makeFolder_folders {name : String} {names : List String} (h : name ∉ names) :
    makeFolder ⟨names.map fun name => (name, .folder [])⟩ name =
      .ok ⟨(name :: names).map fun name => (name, .folder [])⟩ := by
  have hfree : get? ⟨names.map fun name => (name, .folder [])⟩ name = none := by
    rw [get?, Option.map_eq_none_iff, List.find?_eq_none]
    rintro entry hentry
    obtain ⟨other, hother, rfl⟩ := List.mem_map.1 hentry
    simp only [decide_eq_true_eq]
    rintro rfl
    exact h hother
  rw [makeFolder, hfree]
  exact congrArg (Except.ok ∘ Directory.mk) (entries_put_of_free hfree (.folder []))

namespace World

/-- Directories can be put under any names, one after the other. -/
theorem reached_ofDir_folders {names : List String} (hnodup : names.Nodup) (contents : Contents) :
    Reached (.ofDir ⟨⟨names.map fun name => (name, .folder [])⟩, contents⟩) .empty := by
  induction names with
  | nil => exact .start
  | cons name rest ih =>
    obtain ⟨hfresh, hrest⟩ := List.nodup_cons.1 hnodup
    have hact : (ofDir ⟨⟨rest.map fun name => (name, .folder [])⟩, contents⟩).act (.block name) =
        (.ok .done, ofDir ⟨⟨(name :: rest).map fun name => (name, .folder [])⟩, contents⟩) :=
      congrArg (change _) (Directory.makeFolder_folders hfresh)
    have hstep := (ih hrest).step (.block name)
    rw [step_eq, hact] at hstep
    exact hstep

/-- **Names that are too long** can all be taken by directories. -/
theorem reached_shaded (room : Option Nat) (contents : Contents) :
    Reached (.ofDir (Snapshot.shaded room ⟨.empty, contents⟩)) .empty :=
  reached_ofDir_folders (FileName.nodup_all.filter fun name => ¬ fitsIn room name) contents

end World

namespace Session

variable {name path : String} {volume : Volume} {events : List Event}

theorem carries_start (hfolder : volume.folder path = .ok .empty) :
    ({ Session.empty with volume } : Session).Carries name path
      (.ofDir (Snapshot.shaded (Path.room? path) ⟨.empty, volume.contents⟩)) where
  shadowed := .of_folder hfolder
  memory := rfl
  engine := rfl
  engine_at := fun _ hsome => nomatch hsome
  cursors := .inl ⟨rfl, rfl⟩
  unnamed := rfl
  replaced := rfl
  replaced_at := fun _ hmem => absurd hmem List.not_mem_nil

/-- **The sessions on a directory that is empty at first** run as worlds that events lead to from an empty
directory. Where the path leaves room for all names, no other events come before those of the session. -/
theorem runs_as_reached_world (hfolder : volume.folder path = .ok .empty)
    (huses : ∀ event ∈ events, event.Uses path) : ∃ start ledger, World.Reached start ledger ∧
      (Path.room? path = none → start = .ofDir ⟨.empty, volume.contents⟩) ∧
      Answers path ((take (events.map (Event.asStep name path))).run { Session.empty with volume }).1
        (start.run events).1 ∧
      ((take (events.map (Event.asStep name path))).run { Session.empty with volume }).2.Carries name path
        (start.run events).2 := by
  refine ⟨_, .empty, World.reached_shaded (Path.room? path) volume.contents, fun hroom => ?_,
    (carries_start hfolder).run huses⟩
  rw [hroom, Snapshot.shaded_none]

/-- **A script that makes its directory** and uses it with one engine is answered as such a world is. -/
theorem script_as_reached_world (hmade : Volume.empty.makeAll path = (.ok (), volume))
    (hfolder : volume.folder path = .ok .empty) (huses : ∀ event ∈ events, event.Uses path) :
    ∃ told start ledger, World.Reached start ledger ∧
      (Path.room? path = none → start = .ofDir ⟨.empty, volume.contents⟩) ∧
      script (.file (.makeFolder path) :: events.map (Event.asStep name path)) = .ok .done :: told ∧
      Answers path told (start.run events).1 := by
  obtain ⟨start, ledger, hreached, hstart, hanswers, -⟩ := runs_as_reached_world hfolder huses
  exact ⟨_, start, ledger, hreached, hstart, script_makeFolder hmade _, hanswers⟩

/-- There are such directories. -/
example : Volume.empty.makeAll "db" = (.ok (), ⟨⟨[("db", .folder [])]⟩, .empty⟩) ∧
    (⟨⟨[("db", .folder [])]⟩, .empty⟩ : Volume).folder "db" = .ok .empty ∧ Path.room? "db" = none :=
  ⟨by cbv, by cbv, by cbv⟩

end Session

end LsmTree
