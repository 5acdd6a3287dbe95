import LsmTree.Proofs.LiveMerge
import LsmTree.Proofs.Refinement

/-!
# Cursors over an engine in use

A cursor stays with the tables and segments that it was made over. Whatever happens to the engine
meanwhile makes new tables at most, and a write goes into a table that the first source of the cursor
reads, if it reads it at all. So what the cursor would show of a key changes only at a write of that key,
to what a lookup shows right after it:

* **`Engine.follows_range`** — a range just made shows what a lookup answers, and
  **`Engine.spares_range`**: only its first source may read the table that takes the writes;
* **`World.grows_act`** — every event but a write makes tables at most;
* **`World.Faithful`** — a cursor on its way, with **`Faithful.concat`** for one event more and
  **`Faithful.run`** for any;
* **`World.cursor_answers_as_seen`** — so each of its answers was to be seen at some moment before it
  passed the key.
-/

namespace LsmTree

/-! ## A range of an engine -/

namespace Engine

variable {memory : Memory} {engine : Engine}

/-- The marks of some heads are found on the sources they were made of, in the same order. -/
theorem sublist_table?_ofSources (sources : List Leaf) :
    ((Merge.ofSources (Leaf.reader memory) sources).heads.map fun head => head.source.table?).Sublist
      (sources.map Leaf.table?) := by
  unfold Merge.ofSources
  induction sources with
  | nil => exact List.Sublist.refl _
  | cons source rest ih =>
    dsimp only at ih ⊢
    cases hhead : Merge.head? (Leaf.reader memory) source with
    | none =>
      rw [List.filterMap_cons_none hhead, List.map_cons]
      exact ih.cons _
    | some head =>
      have hsame : head.source.table? = source.table? := by
        rw [← Leaf.table?_next memory source]
        unfold Merge.head? at hhead
        split at hhead
        · next hnext =>
          rw [hnext]
          obtain rfl := Option.some.inj hhead
          rfl
        · cases hhead
      rw [List.filterMap_cons_some hhead, List.map_cons, List.map_cons, hsame]
      exact ih.cons_cons _

/-- The cursors of a range are over tables that are there. -/
theorem placed_range (h : engine.Sound memory) (bounds : KeyRange) :
    ∀ head ∈ (Merge.ofSources (Leaf.reader memory) (engine.layers bounds)).heads,
      Merge.Placed bounds memory head := by
  intro head hmem
  obtain ⟨source, hsource, hhead⟩ := List.mem_filterMap.1 hmem
  refine Merge.placed_of_head? ?_ head (Option.mem_toList.2 hhead)
  rintro id cursor rfl
  rcases List.mem_append.1 hsource with htable | hhandle
  · obtain ⟨other, hother, hsame⟩ := List.mem_map.1 htable
    obtain ⟨rfl, rfl⟩ := Leaf.table.inj hsame
    refine ⟨rfl, ?_⟩
    rcases List.mem_cons.1 hother with rfl | hwaiting
    · exact h.active
    · exact (h.waiting _ (List.mem_reverse.1 hwaiting)).1
  · obtain ⟨handle, -, hsame⟩ := List.mem_map.1 hhandle
    cases hsame

/-- The table that takes the writes comes first in a range, and the others are not this one. -/
theorem spares_range (h : engine.Sound memory) (bounds : KeyRange) :
    Merge.Spares engine.active (Merge.ofSources (Leaf.reader memory) (engine.layers bounds)) := by
  intro hmem
  have hmem := ((sublist_table?_ofSources (engine.layers bounds)).tail).subset hmem
  simp only [layers, tables, List.map_append, List.map_map, List.map_cons, List.cons_append,
    List.tail_cons, List.mem_append, List.mem_map, Function.comp_apply] at hmem
  rcases hmem with ⟨id, hwaiting, hsame⟩ | ⟨handle, -, hsame⟩
  · exact (h.waiting id (List.mem_reverse.1 hwaiting)).2 (Option.some.inj hsame)
  · cases hsame

/-- **A range of an engine** is ready to be read, and shows of each key what a lookup answers. -/
theorem follows_range (h : engine.Sound memory) (bounds : KeyRange) :
    let merge := Merge.ofSources (Leaf.reader memory) (engine.layers bounds)
    Merge.Follows bounds [] memory merge ∧
      ∀ key, bounds.contains key = true →
        Merge.shows (Leaf.reader memory) merge key = (engine.find? memory key).bind Entry.value := by
  intro merge
  have hhandles : ∀ handle ∈ engine.segments, Ascending handle.segment.entries := fun handle hmem =>
    h.ascending handle.segment (List.mem_map_of_mem hmem)
  have hascending : ∀ entries ∈ Merge.pendings (Leaf.reader memory) merge.heads, Ascending entries :=
    ascending_of_mem_pendings hhandles
  refine ⟨⟨hascending, ?_, placed_range h bounds, List.Pairwise.nil, by simp [Merge.emitted]⟩,
    fun key hin => ?_⟩
  · intro entries hmem entry hentry
    have hpendings : Merge.pendings (Leaf.reader memory) merge.heads = _ :=
      (Merge.pendings_ofSources _ _).trans
        (congrArg (List.filter fun entries => !entries.isEmpty) (map_pending_layersIn hhandles))
    rw [hpendings] at hmem
    obtain ⟨whole, -, rfl⟩ := List.mem_map.1 (List.mem_filter.1 hmem).1
    exact ⟨(List.mem_filter.1 hentry).2, by simp [Merge.Passed]⟩
  · have hshown : Merge.shows (Leaf.reader memory) merge key = _ := Merge.shows_eq hascending key
    rw [hshown]
    refine congrArg (Option.bind · Entry.value) ((findSome?_pendings hhandles key).trans ?_)
    rw [if_pos hin]
    rfl

end Engine

/-! ## Tables that are made and kept -/

namespace Maintenance

/-- Tables were made at most, and the one that takes the writes is the one it was or a new one. -/
structure Workspace.Grows (start after : Workspace) : Prop where
  tables : start.memory.tables <+: after.memory.tables
  active : after.engine.active = start.engine.active ∨
    start.memory.tables.length ≤ after.engine.active

/-- From wherever it is run, an operation makes tables at most. -/
def Grown {α : Type} (operation : StateM Workspace α) : Prop :=
  ∀ start : Workspace, start.Grows (operation.run start).2

variable {α β : Type}

theorem Workspace.Grows.of_eq {start after : Workspace} (htables : after.memory.tables = start.memory.tables)
    (hactive : after.engine.active = start.engine.active) : start.Grows after :=
  ⟨htables ▸ List.prefix_refl _, .inl hactive⟩

theorem Workspace.Grows.trans {start middle after : Workspace} (h : start.Grows middle)
    (h' : middle.Grows after) : start.Grows after := by
  refine ⟨h.tables.trans h'.tables, ?_⟩
  rcases h'.active with hsame | hnew
  · rw [hsame]
    exact h.active
  · exact .inr (Nat.le_trans h.tables.length_le hnew)

namespace Grown

theorem pure (a : α) : Grown (pure a : StateM Workspace α) := fun _ => .of_eq rfl rfl

theorem bind {operation : StateM Workspace α} {next : α → StateM Workspace β} (h : Grown operation)
    (hnext : ∀ a, Grown (next a)) : Grown (operation >>= next) := fun start =>
  (h start).trans (hnext _ _)

theorem andThen {operation : MaintenanceM α} {next : α → MaintenanceM β} (h : Grown operation.run)
    (hnext : ∀ a, Grown (next a).run) : Grown (operation >>= next).run := by
  show Grown (operation.run >>= ExceptT.bindCont next)
  refine bind h fun result => ?_
  cases result with
  | error error => exact pure _
  | ok a => exact hnext a

theorem lift {operation : StateM Workspace α} (h : Grown operation) :
    Grown (liftM operation : MaintenanceM α).run :=
  bind h fun _ => pure _

theorem get : Grown (get : MaintenanceM Workspace).run := fun _ => .of_eq rfl rfl

theorem throw (error : Error) : Grown (throw error : MaintenanceM α).run := fun _ => .of_eq rfl rfl

theorem onDisk (operation : DiskM α) : Grown (onDisk operation).run := fun _ => .of_eq rfl rfl

theorem change {f : Engine → Engine} (h : ∀ engine, (f engine).active = engine.active) :
    Grown (change f) := fun start => .of_eq rfl (h start.engine)

theorem adopt (segment : Segment) : Grown (adopt segment) := fun _ => .of_eq rfl rfl

theorem mapM {γ : Type} {f : γ → MaintenanceM β} (h : ∀ c, Grown (f c).run) (all : List γ) :
    Grown (all.mapM f).run := by
  induction all with
  | nil =>
    rw [List.mapM_nil]
    exact pure _
  | cons one rest ih =>
    rw [List.mapM_cons]
    exact andThen (h one) fun _ => andThen ih fun _ => pure _

theorem build (entries : List Entry) : Grown (build entries).run :=
  andThen get fun _ => andThen (lift fun _ => .of_eq rfl rfl) fun _ => onDisk _

theorem commit (segments : List Segment) (built : Option Segment) :
    Grown (commit segments built).run :=
  andThen get fun _ => onDisk _

theorem freeze : Grown freeze := by
  intro start
  rw [run_freeze]
  unfold Workspace.frozen
  split
  · exact .of_eq rfl rfl
  · exact ⟨List.prefix_append _ _, .inr (Nat.le_refl _)⟩

theorem flushTables (tables : List Nat) : Grown (flushTables tables).run := by
  induction tables with
  | nil => exact pure _
  | cons table rest ih =>
    -- A flushed table leaves the queue, not the memory: cursors may still read it.
    refine andThen get fun workspace => andThen (build _) fun built => ?_
    cases built with
    | none => exact andThen (lift (change fun _ => rfl)) fun _ => ih
    | some segment =>
      refine andThen (commit _ _) fun _ => andThen (lift (adopt segment)) fun handle => ?_
      exact andThen (lift (change fun _ => rfl)) fun _ => ih

theorem flushAll : Grown flushAll.run :=
  andThen (lift freeze) fun _ => andThen get fun _ => flushTables _

theorem requireOpen : Grown requireOpen.run := by
  refine andThen get fun workspace => ?_
  split
  · exact throw .closed
  · exact pure _

theorem flush : Grown flush.run :=
  andThen requireOpen fun _ => flushAll

/-- The step in which a closing lets go of all data. -/
theorem letGo : Grown (do
    let active ← newTable
    Maintenance.change fun engine =>
      { engine with closed := true, active, queue := [], segments := [] }) := fun _ =>
  ⟨List.prefix_append _ _, .inr (Nat.le_refl _)⟩

theorem close : Grown close.run := by
  refine andThen get fun workspace => ?_
  split
  · exact pure _
  · exact andThen flushAll fun _ => lift letGo

theorem compact (inUse : Handle → Bool) : Grown (compact inUse).run := by
  refine andThen requireOpen fun _ => andThen (lift freeze) fun _ => andThen get fun workspace => ?_
  dsimp only
  split
  · exact pure _
  · refine andThen (build _) fun built => andThen (commit _ _) fun _ => ?_
    refine andThen (mapM (fun segment => lift (adopt segment)) _) fun handles => ?_
    exact andThen (lift (change fun _ => rfl)) fun _ => onDisk _

end Grown

end Maintenance

/-! ## Worlds -/

/-- The cursor that an event is about. -/
def Event.cursor? : Event → Option String
  | .cursor name _ | .next name | .release name => some name
  | _ => none

/-- Whether an event leaves the cursor of a name in place. -/
def Event.keeps (name : String) : Event → Bool
  | .cursor other _ | .release other => other ≠ name
  | _ => true

namespace World

open Merge (Follows Spares Passed answered emitted shows)

variable {world after : World} {name : String} {event : Event}

/-- Tables were made at most; an engine that is there afterwards writes into the table that the engine
before wrote into, or into a new one. -/
structure Grows (world after : World) : Prop where
  tables : world.memory.tables <+: after.memory.tables
  active : ∀ engine, after.engine = some engine →
    (∃ before, world.engine = some before ∧ engine.active = before.active) ∨
      world.memory.tables.length ≤ engine.active

theorem Grows.of_eq (hmemory : after.memory = world.memory)
    (hengine : after.engine = world.engine ∨ after.engine = none) : world.Grows after := by
  refine ⟨hmemory ▸ List.prefix_refl _, fun engine hsome => .inl ⟨engine, ?_, rfl⟩⟩
  rcases hengine with hsame | hnone
  · exact hsame ▸ hsome
  · rw [hnone] at hsome
    cases hsome

theorem grows_maintain {α : Type} {step : Maintenance.MaintenanceM α}
    (h : Maintenance.Grown step.run) : world.Grows (world.maintain step).2 := by
  cases hengine : world.engine with
  | none =>
    rw [maintain, hengine]
    exact .of_eq rfl (.inl rfl)
  | some engine =>
    rw [maintain_eq step hengine]
    have hgrows := h (world.workspace engine)
    refine ⟨hgrows.tables, fun engine' hsome => ?_⟩
    obtain rfl := Option.some.inj hsome
    exact hgrows.active.imp_left fun hsame => ⟨engine, hengine, hsame⟩

theorem cursors_maintain {α : Type} (step : Maintenance.MaintenanceM α) :
    (world.maintain step).2.cursors = world.cursors := by
  rw [maintain]
  split <;> rfl

theorem grows_discard : world.Grows world.discard :=
  ⟨(grows_maintain Maintenance.Grown.close).tables, fun _ hsome => nomatch hsome⟩

theorem Grows.trans {middle : World} (h : world.Grows middle) (h' : middle.Grows after) :
    world.Grows after := by
  refine ⟨h.tables.trans h'.tables, fun engine hsome => ?_⟩
  rcases h'.active engine hsome with ⟨between, hbetween, hsame⟩ | hnew
  · exact hsame ▸ h.active between hbetween
  · exact .inr (Nat.le_trans h.tables.length_le hnew)

/-- A directory that is opened gets a new table. -/
theorem grows_load (config : Config) : world.Grows (world.load config).2 := by
  rw [load]
  split
  · exact .of_eq rfl (.inl rfl)
  · next manager segments disk hrun =>
    have htables := Memory.tables_adoptAll world.memory config.dataDir segments
    refine ⟨?_, fun engine hsome => .inr ?_⟩
    · simp only [Engine.ofSegments, Memory.newTable, htables]
      exact List.prefix_append _ _
    · obtain rfl := Option.some.inj hsome
      simp only [Engine.ofSegments, Memory.newTable, htables]
      exact Nat.le_refl _

/-- **Every event but a write** makes tables at most. -/
theorem grows_act (h : event.written = []) : world.Grows (world.act event).2 := by
  have hreading : event.isReading = true → world.Grows (world.act event).2 := fun hread => by
    obtain ⟨cursors, hact⟩ := act_reading world hread
    rw [hact]
    exact .of_eq rfl (.inl rfl)
  have hchange : ∀ changed, world.Grows (world.change changed).2 := fun changed => by
    cases changed <;> exact .of_eq rfl (.inl rfl)
  cases event with
  | load config => exact grows_discard.trans (grows_load config)
  | upsert entry => cases h
  | flush => exact grows_maintain Maintenance.Grown.flush
  | compact =>
    have hgrows : world.Grows (world.maintain (Maintenance.compact world.isHeld)).2 :=
      grows_maintain (Maintenance.Grown.compact _)
    exact ⟨hgrows.tables, hgrows.active⟩
  | close => exact grows_maintain Maintenance.Grown.close
  | drop => exact grows_discard
  | crash => exact .of_eq rfl (.inr rfl)
  | block name => exact hchange _
  | unblock name => exact hchange _
  | _ => exact hreading rfl -- lookups, ranges and what is done to cursors

/-- An event that is about no cursor leaves them all as they are. -/
theorem cursors_act (h : event.cursor? = none) : (world.act event).2.cursors = world.cursors := by
  have hload : ∀ (world : World) config, (world.load config).2.cursors = world.cursors := by
    intro world config
    rw [load]
    split <;> rfl
  have hdiscard : world.discard.cursors = world.cursors := cursors_maintain _
  have hchange : ∀ changed, (world.change changed).2.cursors = world.cursors := fun changed => by
    cases changed <;> rfl
  cases event with
  | load config => exact (hload world.discard config).trans hdiscard
  | lookup key => rfl
  | range bounds => rfl
  | upsert entry =>
    rw [act]
    split <;> rfl
  | flush => exact cursors_maintain Maintenance.flush
  | compact => exact cursors_maintain (Maintenance.compact world.isHeld)
  | close => exact cursors_maintain Maintenance.close
  | drop => exact hdiscard
  | crash => rfl
  | block name => exact hchange _
  | unblock name => exact hchange _
  | _ => cases h

/-- An event that does not ask the cursor of a name, nor replaces it, leaves it as it is. -/
theorem get?_cursors_act (h : event.keeps name = true) (hnext : event ≠ .next name) :
    (world.act event).2.cursors.get? name = world.cursors.get? name := by
  cases event with
  | cursor other bounds =>
    have hne : ¬ name = other := fun hsame => by simp [Event.keeps, hsame] at h
    rw [act]
    split
    · rfl
    · exact (Named.get?_put _ _ _ _).trans (if_neg hne)
  | next other =>
    have hne : ¬ name = other := fun hsame => hnext (hsame ▸ rfl)
    rw [act]
    split
    · rfl
    · exact (Named.get?_put _ _ _ _).trans (if_neg hne)
  | release other =>
    have hne : ¬ name = other := fun hsame => by simp [Event.keeps, hsame] at h
    exact (Named.get?_erase _ _ _).trans (if_neg hne)
  | _ => exact congrArg (Named.get? · name) (cursors_act rfl)

/-! ## A cursor and what it answers -/

/-- What a cursor was asked for next and answered, by its name. -/
def yielded (name : String) (answers : List (Event × Except StepFault Answer)) :
    List (Option Entry) :=
  answers.filterMap fun
    | (.next other, .ok (.lookup entry)) => if other = name then some entry else none
    | _ => none

/-- The answers of a cursor in the course of some events. -/
def given (world : World) (name : String) (events : List Event) : List (Option Entry) :=
  yielded name (world.run events).1

theorem run_cons (world : World) (event : Event) (events : List Event) :
    world.run (event :: events) =
      ((event, (world.step event).1) :: ((world.step event).2.run events).1,
        ((world.step event).2.run events).2) := rfl

theorem run_concat (world : World) (events : List Event) (event : Event) :
    world.run (events ++ [event]) =
      ((world.run events).1 ++ [(event, ((world.run events).2.step event).1)],
        ((world.run events).2.step event).2) := by
  induction events generalizing world with
  | nil => rfl
  | cons first rest ih =>
    rw [List.cons_append, run_cons, ih, run_cons]
    rfl

theorem given_concat (world : World) (name : String) (events : List Event) (event : Event) :
    world.given name (events ++ [event]) = world.given name events ++
      yielded name [(event, ((world.run events).2.step event).1)] := by
  rw [given, given, run_concat, yielded, List.filterMap_append]
  rfl

/-- The other events give no answer of the cursor. -/
theorem yielded_of_ne (hnext : event ≠ .next name) (answer : Except StepFault Answer) :
    yielded name [(event, answer)] = [] := by
  cases event with
  | next other =>
    have hne : ¬ other = name := fun hsame => hnext (hsame ▸ rfl)
    cases answer with
    | error fault => rfl
    | ok answer => cases answer <;> simp [yielded, hne]
  | _ => rfl

/-- A value that a lookup of the key would have answered at some moment before the cursor passed it: at
the start, or right after a write of the key was accepted. -/
def Seen (world : World) (name : String) (events : List Event) (key : Bytes)
    (value : Option Bytes) : Prop :=
  ∃ early, early <+: events ∧ ¬ Passed (world.given name early) key ∧
    ((world.run early).2.step (.lookup key)).1 = .ok (.value value) ∧
    (early = [] ∨ ∃ before entry answer, early = before ++ [.upsert entry] ∧ entry.key = key ∧
      ¬ Passed (world.given name before) key ∧
      ((world.run before).2.step (.upsert entry)).1 = .ok answer)

theorem Seen.concat {events : List Event} {key : Bytes} {value : Option Bytes}
    (h : world.Seen name events key value) (event : Event) :
    world.Seen name (events ++ [event]) key value := by
  obtain ⟨early, hearly, hrest⟩ := h
  exact ⟨early, hearly.trans (List.prefix_append _ _), hrest⟩

/-- **A cursor on its way** after some events: it goes on past its answers, of each key that it has passed
it answered a value that was to be seen, and of each key that is ahead of it it would do so now. -/
structure Faithful (bounds : KeyRange) (name : String) (world : World) (events : List Event) : Prop where
  cursor : ∃ merge, (world.run events).2.cursors.get? name = some merge ∧
    Follows bounds (world.given name events) (world.run events).2.memory merge ∧
    (∀ engine, (world.run events).2.engine = some engine → Spares engine.active merge) ∧
    ∀ key, bounds.contains key = true → ¬ Passed (world.given name events) key →
      world.Seen name events key (shows (Leaf.reader (world.run events).2.memory) merge key)
  passed : ∀ key, bounds.contains key = true → Passed (world.given name events) key →
    world.Seen name events key (answered (world.given name events) key)

variable {bounds : KeyRange} {events : List Event}

theorem Faithful.next (h : Faithful bounds name world events) :
    Faithful bounds name world (events ++ [.next name]) := by
  obtain ⟨merge, hmerge, hfollows, hspares, hseen⟩ := h.cursor
  let step := (Merge.reader (Leaf.reader (world.run events).2.memory)).next merge
  have hact : (world.run events).2.act (.next name) = (.ok (.lookup step.1),
      { (world.run events).2 with cursors := (world.run events).2.cursors.put name step.2 }) := by
    rw [act, hmerge]
  have hgiven : world.given name (events ++ [.next name]) = world.given name events ++ [step.1] := by
    rw [given_concat, step_eq, hact]
    simp [yielded]
  have hrun : (world.run (events ++ [.next name])).2 = World.releaseFiles
      { (world.run events).2 with cursors := (world.run events).2.cursors.put name step.2 } := by
    rw [run_concat, step_eq, hact]
  have hanswered := hfollows.answered_next
  -- Each key was passed before, is passed by this answer, or is still ahead.
  refine ⟨⟨step.2, ?_, ?_, ?_, fun key hin hahead => ?_⟩, fun key hin hpassed => ?_⟩
  · rw [hrun]
    exact (Named.get?_put _ _ _ _).trans (if_pos rfl)
  · rw [hrun, hgiven]
    exact hfollows.next
  · rw [hrun]
    exact fun engine hengine => (hspares engine hengine).next
  · rw [hgiven] at hahead
    have hbefore : ¬ Passed (world.given name events) key := fun hpassed =>
      hahead (Merge.passed_append.2 (.inl hpassed))
    rw [hrun]
    show world.Seen name _ key (shows (Leaf.reader (world.run events).2.memory) step.2 key)
    rw [(hanswered key).2.2 hahead]
    exact (hseen key hin hbefore).concat _
  · rw [hgiven] at hpassed ⊢
    by_cases hbefore : Passed (world.given name events) key
    · rw [(hanswered key).1 hbefore]
      exact (h.passed key hin hbefore).concat _
    · rw [(hanswered key).2.1 hbefore hpassed]
      exact (hseen key hin hbefore).concat _

/-- Events that do not ask the cursor leave what was said of the keys passed. -/
theorem Faithful.of_shows (h : Faithful bounds name world events) (hnext : event ≠ .next name)
    (hcursor : ∃ merge, ((world.run events).2.step event).2.cursors.get? name = some merge ∧
      Follows bounds (world.given name events) ((world.run events).2.step event).2.memory merge ∧
      (∀ engine, ((world.run events).2.step event).2.engine = some engine →
        Spares engine.active merge) ∧
      ∀ key, bounds.contains key = true → ¬ Passed (world.given name events) key →
        world.Seen name (events ++ [event]) key
          (shows (Leaf.reader ((world.run events).2.step event).2.memory) merge key)) :
    Faithful bounds name world (events ++ [event]) := by
  have hgiven : world.given name (events ++ [event]) = world.given name events := by
    rw [given_concat, yielded_of_ne hnext, List.append_nil]
  have hrun : (world.run (events ++ [event])).2 = ((world.run events).2.step event).2 := by
    rw [run_concat]
  refine ⟨?_, fun key hin hpassed => ?_⟩
  · rw [hgiven, hrun]
    exact hcursor
  · rw [hgiven] at hpassed ⊢
    exact (h.passed key hin hpassed).concat event

theorem Faithful.grows (h : Faithful bounds name world events) (hkeeps : event.keeps name = true)
    (hnext : event ≠ .next name) (hgrows : (world.run events).2.Grows ((world.run events).2.act event).2) :
    Faithful bounds name world (events ++ [event]) := by
  obtain ⟨merge, hmerge, hfollows, hspares, hseen⟩ := h.cursor
  obtain ⟨hfollows', hshows⟩ := hfollows.extends hgrows.tables
  refine h.of_shows hnext ⟨merge, ?_, hfollows', fun engine hengine => ?_, fun key hin hahead => ?_⟩
  · exact (get?_cursors_act hkeeps hnext).trans hmerge
  · rcases hgrows.active engine hengine with ⟨before, hbefore, hsame⟩ | hnew
    · exact hsame ▸ hspares before hbefore
    · -- A head reads none of the tables that were made since.
      intro hmem
      obtain ⟨head, hhead, hreads⟩ := List.mem_map.1 (List.mem_of_mem_tail hmem)
      exact Nat.lt_irrefl _ (Nat.lt_of_lt_of_le (hfollows.table_lt hhead hreads) hnew)
  · show world.Seen name _ key (shows (Leaf.reader ((world.run events).2.act event).2.memory) merge key)
    rw [hshows key]
    exact (hseen key hin hahead).concat event

/-- A lookup answers with what was just written. -/
theorem get_insert {memory : Memory} {engine : Engine} (hopen : engine.closed = false) {entry : Entry}
    (hactive : engine.active < memory.tables.length) :
    engine.get (memory.insert engine.active entry) entry.key = .ok entry.value := by
  have hfound : ((memory.insert engine.active entry).table engine.active).get? entry.key = some entry := by
    rw [Memory.table_insert, if_pos ⟨rfl, hactive⟩, Memtable.get?_insert, if_pos rfl]
  rw [Engine.get, hopen, Engine.find?, Engine.tables, List.findSome?_cons, hfound]
  rfl

theorem Faithful.upsert (h : Faithful bounds name world events) (entry : Entry) :
    Faithful bounds name world (events ++ [.upsert entry]) := by
  have hnext : Event.upsert entry ≠ .next name := by simp
  rcases (world.run events).2.act_upsert entry with ⟨fault, hact⟩ | ⟨engine, hengine, hopen, hact⟩
  · exact h.grows rfl hnext (hact ▸ .of_eq rfl (.inl rfl))
  · -- The engine writes into its active table, which the first head of the cursor may read.
    obtain ⟨merge, hmerge, hfollows, hspares, hseen⟩ := h.cursor
    obtain ⟨hfollows', hshows⟩ := hfollows.insert (hspares engine hengine) entry
    have hstep : ((world.run events).2.step (.upsert entry)).2 = World.releaseFiles
        { (world.run events).2 with
          memory := (world.run events).2.memory.insert engine.active entry } := by
      rw [step_eq, hact]
    have hgiven : world.given name (events ++ [.upsert entry]) = world.given name events := by
      rw [given_concat, yielded_of_ne hnext, List.append_nil]
    refine h.of_shows hnext ⟨merge, ?_, ?_, ?_, fun key hin hahead => ?_⟩
    · rw [hstep]
      exact hmerge
    · rw [hstep]
      exact hfollows'
    · rw [hstep]
      exact hspares
    · rw [hstep]
      rcases hshows key with hsame | ⟨rfl, hactive, hnew⟩
      · exact hsame ▸ (hseen key hin hahead).concat _
      · -- The value just written is there to be seen now.
        refine ⟨events ++ [.upsert entry], List.prefix_refl _, hgiven ▸ hahead, ?_,
          .inr ⟨events, entry, .done, rfl, rfl, hahead, ?_⟩⟩
        · rw [run_concat, hstep]
          show World.ask { (world.run events).2 with
            memory := (world.run events).2.memory.insert engine.active entry } (fun engine =>
              Answer.value <$> engine.get ((world.run events).2.memory.insert _ entry) entry.key) = _
          rw [ask, hengine]
          dsimp only
          rw [get_insert hopen hactive, ← hnew]
          rfl
        · rw [step_eq, hact]

/-- **Every event keeps a cursor faithful.** -/
theorem Faithful.concat (h : Faithful bounds name world events) (hkeeps : event.keeps name = true) :
    Faithful bounds name world (events ++ [event]) := by
  by_cases hnext : event = .next name
  · subst hnext
    exact h.next
  · by_cases hwrites : event.written = []
    · exact h.grows hkeeps hnext (grows_act hwrites)
    · cases event with
      | upsert entry => exact h.upsert entry
      | _ => exact absurd rfl hwrites

/-- **Through any events** a cursor stays faithful. -/
theorem Faithful.run (h : Faithful bounds name world events) {more : List Event}
    (hkeeps : ∀ event ∈ more, event.keeps name = true) :
    Faithful bounds name world (events ++ more) := by
  induction more generalizing events with
  | nil => exact (List.append_nil events).symm ▸ h
  | cons event rest ih =>
    have hrest := ih (h.concat (hkeeps event (by simp))) fun event hmem => hkeeps event (by simp [hmem])
    rwa [List.append_assoc, List.singleton_append] at hrest

/-- A cursor that is made on an open engine is faithful at the start. -/
theorem faithful_cursor {engine : Engine} (hengine : world.engine = some engine)
    (hopen : engine.closed = false) (hsound : engine.Sound world.memory) (name : String)
    (bounds : KeyRange) : ∃ count made,
      world.step (.cursor name bounds) = (.ok (.number count), made) ∧
      Faithful bounds name made [] := by
  let merge := Merge.ofSources (Leaf.reader world.memory) (engine.layers bounds)
  obtain ⟨hfollows, hshows⟩ := Engine.follows_range hsound bounds
  have hask : (world.ask fun engine => engine.range world.memory bounds) = .ok merge := by
    rw [ask, hengine]
    dsimp only
    rw [Engine.range, hopen]
    rfl
  have hact : world.act (.cursor name bounds) = (.ok (.number merge.liveSources),
      { world with cursors := world.cursors.put name merge }) := by
    rw [act, hask]
  refine ⟨merge.liveSources, World.releaseFiles { world with cursors := world.cursors.put name merge },
    by rw [step_eq, hact], ⟨merge, ?_, hfollows, ?_, ?_⟩, ?_⟩
  · exact (Named.get?_put _ _ _ _).trans (if_pos rfl)
  · intro other hother
    obtain rfl : engine = other := Option.some.inj (hengine.symm.trans hother)
    exact Engine.spares_range hsound bounds
  · intro key hin hahead
    refine ⟨[], List.prefix_refl _, hahead, ?_, .inl rfl⟩
    show (world.ask fun engine => Answer.value <$> engine.get world.memory key) = _
    rw [ask, hengine]
    dsimp only
    rw [Engine.get, hopen, ← hshows key hin]
    rfl
  · rintro key - ⟨answer, hmem, -⟩
    cases hmem

/-- **A cursor over an engine in use.** A cursor that is made on an open engine, whose tables are its own
and whose segments are in order, goes on to answer whatever happens meanwhile: writes, flushes,
compactions, closings, the loss of the engine and the opening of another one. The entries that it emits
are live and lie in its range, in strictly ascending key order. Of each key of the range that it has
passed, and once it has answered none it has passed them all, it has said what a lookup would have
answered at some moment after it was made and before it passed the key; and if no write of the key was
accepted in that time, what a lookup would have answered when it was made. -/
theorem cursor_answers_as_seen {engine : Engine} (hengine : world.engine = some engine)
    (hopen : engine.closed = false) (hsound : engine.Sound world.memory) (name : String)
    (bounds : KeyRange) : ∃ count made,
      world.step (.cursor name bounds) = (.ok (.number count), made) ∧
      ∀ events, (∀ event ∈ events, event.keeps name = true) →
        (∃ answer, ((made.run events).2.step (.next name)).1 = .ok (.lookup answer)) ∧
        Ascending (emitted (made.given name events)) ∧
        (∀ entry ∈ emitted (made.given name events),
          bounds.contains entry.key = true ∧ entry.isTombstone = false) ∧
        ∀ key, bounds.contains key = true → Passed (made.given name events) key →
          (∃ early, early <+: events ∧ ¬ Passed (made.given name early) key ∧
            ((made.run early).2.step (.lookup key)).1 =
              .ok (.value (answered (made.given name events) key))) ∧
          ((∀ before entry answer, before ++ [.upsert entry] <+: events → entry.key = key →
              ¬ Passed (made.given name before) key →
              ((made.run before).2.step (.upsert entry)).1 ≠ .ok answer) →
            (made.step (.lookup key)).1 = .ok (.value (answered (made.given name events) key))) := by
  obtain ⟨count, made, hmade, hstart⟩ := faithful_cursor hengine hopen hsound name bounds
  refine ⟨count, made, hmade, fun events hkeeps => ?_⟩
  have hfaithful : Faithful bounds name made events := hstart.run hkeeps
  obtain ⟨merge, hmerge, hfollows, -, -⟩ := hfaithful.cursor
  refine ⟨⟨((Merge.reader (Leaf.reader (made.run events).2.memory)).next merge).1, ?_⟩,
    hfollows.ordered, hfollows.live, fun key hin hpassed => ?_⟩
  · rw [step_eq, act, hmerge]
  · obtain ⟨early, hearly, hahead, hlookup, hwhen⟩ := hfaithful.passed key hin hpassed
    refine ⟨⟨early, hearly, hahead, hlookup⟩, fun hnone => ?_⟩
    -- The moment was the start, or right after a write of the key, of which there was none.
    rcases hwhen with rfl | ⟨before, entry, answer, rfl, hkey, hbefore, haccepted⟩
    · exact hlookup
    · exact absurd haccepted (hnone before entry answer hearly hkey hbefore)

/-- A world with an engine in use, whose layers overlap. -/
def layered : World := { ofDir .empty with memory := Engine.layeredMemory, engine := some Engine.layered }

/-- A write ahead of a cursor, and a compaction and the loss of the engine while it is read. -/
def meanwhile : List Event :=
  [.upsert (.put [3] [5]), .next "c", .compact, .crash, .next "c", .next "c"]

/-- The cursor hides the deleted key 1 and shows what was written for key 3 after it was made. -/
theorem cursor_answers_as_seen_meanwhile :
    (layered.engine = some Engine.layered ∧ Engine.layered.closed = false ∧
      Engine.layered.Sound layered.memory) ∧
    ∃ count made, layered.step (.cursor "c" .all) = (.ok (.number count), made) ∧
      made.given "c" meanwhile = [some (.put [2] []), some (.put [3] [5]), none] ∧
      ∃ early, early <+: meanwhile ∧ ¬ Passed (made.given "c" early) [3] ∧
        ((made.run early).2.step (.lookup [3])).1 = .ok (.value (some [5])) := by
  have hsound : Engine.layered.Sound layered.memory := by
    refine ⟨by decide, by decide, ?_⟩
    unfold Ascending
    decide
  have hengine : layered.engine = some Engine.layered := rfl
  obtain ⟨count, made, hmade, hall⟩ := cursor_answers_as_seen hengine rfl hsound "c" .all
  have hgiven : made.given "c" meanwhile = [some (.put [2] []), some (.put [3] [5]), none] := by
    obtain rfl : (layered.step (.cursor "c" .all)).2 = made := congrArg Prod.snd hmade
    decide +kernel
  obtain ⟨-, -, -, hpassed⟩ := hall meanwhile (by decide)
  obtain ⟨⟨early, hearly, hahead, hlookup⟩, -⟩ :=
    hpassed [3] rfl ⟨none, by simp [hgiven], fun _ hentry => nomatch hentry⟩
  rw [hgiven] at hlookup
  exact ⟨⟨hengine, rfl, hsound⟩, count, made, hmade, hgiven, early, hearly, hahead, hlookup⟩

end World

end LsmTree
