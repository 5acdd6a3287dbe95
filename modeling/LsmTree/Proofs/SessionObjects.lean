import LsmTree.Proofs.Endings
import LsmTree.Proofs.MaintenanceSteps
import LsmTree.Session.Cursors

/-!
# The objects of a session on one directory

An engine stays in the directory that it was opened for, and so do the segments that it opens, whether or not
what it does succeeds. The cursors made on it are merges of leaves, however deep a session keeps them.

* **`Engine.At`** — an engine with segments of the directory at a path, with **`Maintenance.at_flush`**,
  **`Maintenance.at_close`**, **`Maintenance.at_compact`** for what it does;
* **`Cursors.Are`** — the cursors of a session are given merges of leaves.
-/

namespace LsmTree

/-! ## Engines that stay in their directory -/

/-- An engine of the directory at a path, with segments from there. -/
structure Engine.At (path : String) (engine : Engine) : Prop where
  dataDir : engine.config.dataDir = path
  placed : ∀ handle ∈ engine.segments, handle.dir = path

theorem Memory.dir_adoptAll (memory : Memory) (dir : String) (segments : List Segment) :
    ∀ handle ∈ (memory.adoptAll dir segments).1, handle.dir = dir := by
  induction segments generalizing memory with
  | nil => exact fun handle hmem => absurd hmem List.not_mem_nil
  | cons segment rest ih =>
    intro handle hmem
    rcases List.mem_cons.1 hmem with rfl | hmem
    · rfl
    · exact ih _ handle hmem

theorem Engine.at_ofSegments (memory : Memory) (config : Config) (manager : Manager) (segments : List Segment) :
    (Engine.ofSegments memory config manager segments).1.At config.dataDir :=
  ⟨rfl, Memory.dir_adoptAll _ _ _⟩

namespace Maintenance

variable {α : Type} {path : String} {start : Workspace}

theorem at_frozen (h : start.engine.At path) : start.frozen.engine.At path := by
  refine ⟨?_, ?_⟩
  · rw [frozen_eq]
    exact h.dataDir
  · rw [frozen_segments]
    exact h.placed

theorem at_build (entries : List Entry) (h : start.engine.At path) :
    Ends (build entries).run start fun _ after => after.engine.At path := ⟨h.dataDir, h.placed⟩

theorem ends_get : Ends (get : MaintenanceM Workspace).run start fun result after =>
    result = .ok start ∧ after = start := ⟨rfl, rfl⟩

theorem at_commit (segments : List Segment) (built : Option Segment) (h : start.engine.At path) :
    Ends (commit segments built).run start fun _ after => after.engine.At path := h

/-- **Writing the waiting tables out**, by induction on them. -/
theorem at_flushTables (tables : List Nat) (h : start.engine.At path) :
    Ends (flushTables tables).run start fun _ after => after.engine.At path := by
  induction tables generalizing start with
  | nil => exact h
  | cons table rest ih =>
    refine Ends.andThen ends_get ?_ (by rintro _ _ ⟨⟨⟩, -⟩)
    rintro _ _ ⟨⟨⟩, rfl⟩
    refine Ends.andThen (at_build _ h) ?_ fun _ _ hafter => hafter
    rintro (_ | segment) after hafter
    · exact ih ⟨hafter.dataDir, hafter.placed⟩
    · refine Ends.andThen (at_commit _ _ hafter) ?_ fun _ _ hafter => hafter
      rintro ⟨⟩ after hafter
      have hplaced : (Workspace.mk
          { after.engine with
            queue := rest
            segments := (after.memory.adopt after.engine.config.dataDir segment).1 :: after.engine.segments }
          (after.memory.adopt after.engine.config.dataDir segment).2 after.disk).engine.At path :=
        ⟨hafter.dataDir, List.forall_mem_cons.2 ⟨hafter.dataDir, hafter.placed⟩⟩
      exact ih hplaced

theorem at_flushAll (h : start.engine.At path) :
    Ends flushAll.run start fun _ after => after.engine.At path := by
  rw [Ends, run_flushAll]
  exact at_flushTables _ (at_frozen h)

/-- **A flush** stays in the directory. -/
theorem at_flush (h : start.engine.At path) :
    Ends flush.run start fun _ after => after.engine.At path := by
  cases hclosed : start.engine.closed with
  | true =>
    rw [Ends, run_flush_closed hclosed]
    exact h
  | false =>
    rw [Ends, run_flush hclosed]
    exact at_flushAll h

/-- **A closing** stays in the directory. -/
theorem at_close (h : start.engine.At path) :
    Ends close.run start fun _ after => after.engine.At path := by
  cases hclosed : start.engine.closed with
  | true =>
    rw [Ends, run_close_closed hclosed]
    exact h
  | false =>
    rw [Ends, run_close hclosed]
    show Ends closeOpen.run start fun _ after => after.engine.At path
    refine Ends.andThen (at_flushAll h) (fun _ after hafter => ?_) fun _ _ hafter => hafter
    exact ⟨hafter.dataDir, fun _ hmem => absurd hmem List.not_mem_nil⟩

theorem at_compactLayers (inUse : Handle → Bool) (h : start.engine.At path) :
    Ends (compactLayers inUse start).run start fun result after => after.engine.At path ∧
      ∀ replaced, result = .ok replaced → ∀ handle ∈ replaced, handle.dir = path := by
  have hfails {error : Error} {after : Workspace} (hafter : after.engine.At path) :
      after.engine.At path ∧ ∀ replaced, (.error error : Except Error (List Handle)) = .ok replaced →
        ∀ handle ∈ replaced, handle.dir = path := ⟨hafter, by rintro _ ⟨⟩⟩
  refine Ends.andThen (at_build _ h) (fun built after hafter => ?_) fun _ _ => hfails
  refine Ends.andThen (at_commit _ _ hafter) (fun _ after hafter => ?_) fun _ _ => hfails
  rw [Ends, run_replace]
  refine ⟨⟨hafter.dataDir, fun handle hmem => ?_⟩, ?_⟩
  · rw [← hafter.dataDir]
    exact Memory.dir_adoptAll _ _ _ handle hmem
  · rintro _ ⟨⟩ handle hmem
    exact h.placed handle (List.mem_of_mem_filter hmem)

/-- **A compaction** stays in the directory, and so are the segments there that it replaces. -/
theorem at_compact (inUse : Handle → Bool) (h : start.engine.At path) :
    Ends (compact inUse).run start fun result after => after.engine.At path ∧
      ∀ replaced, result = .ok replaced → ∀ handle ∈ replaced, handle.dir = path := by
  cases hclosed : start.engine.closed with
  | true =>
    rw [Ends, run_compact_closed inUse hclosed]
    exact ⟨h, by rintro _ ⟨⟩⟩
  | false =>
    rw [Ends, run_compact inUse hclosed]
    split
    · refine ⟨at_frozen h, ?_⟩
      rintro _ ⟨⟩ handle hmem
      exact absurd hmem List.not_mem_nil
    · exact at_compactLayers inUse (at_frozen h)

end Maintenance

/-! ## Cursors -/

namespace Named

variable {α β : Type}

theorem get?_map (named : Named α) (f : α → β) (name : String) :
    Named.get? (named.map fun entry => (entry.1, f entry.2)) name = (named.get? name).map f := by
  rw [get?, get?, List.find?_map, Option.map_map, Option.map_map]
  rfl

theorem erase_map (named : Named α) (f : α → β) (name : String) :
    Named.erase (named.map fun entry => (entry.1, f entry.2)) name =
      (named.erase name).map fun entry => (entry.1, f entry.2) := by
  rw [erase, erase, List.filter_map]
  rfl

theorem put_map (named : Named α) (f : α → β) (name : String) (value : α) :
    Named.put (named.map fun entry => (entry.1, f entry.2)) name (f value) =
      (named.put name value).map fun entry => (entry.1, f entry.2) := by
  rw [put, erase_map]
  rfl

theorem erase_of_none {named : Named α} {name : String} (h : named.get? name = none) :
    named.erase name = named := by
  refine List.filter_eq_self.2 fun entry hmem => ?_
  simpa using List.find?_eq_none.1 (Option.map_eq_none_iff.1 h) entry hmem

end Named

namespace Source

theorem handles_ofMerge (depth : Nat) (merge : Merge Leaf) :
    handles (depth + 1) (ofMerge depth merge) = merge.heads.flatMap fun head => head.source.handles := by
  induction depth with
  | zero => rfl
  | succ depth ih => exact ih

/-- **A merge of leaves is read** as it is at any depth. -/
theorem next_ofMerge (memory : Memory) (depth : Nat) (merge : Merge Leaf) :
    (reader memory (depth + 1)).next (ofMerge depth merge) =
      (((Merge.reader (Leaf.reader memory)).next merge).1,
        ofMerge depth ((Merge.reader (Leaf.reader memory)).next merge).2) := by
  induction depth with
  | zero => rfl
  | succ depth ih =>
    show (((reader memory (depth + 1)).next (ofMerge depth merge)).1,
      Sum.inl ((reader memory (depth + 1)).next (ofMerge depth merge)).2) = _
    rw [ih]
    rfl

end Source

namespace Cursors

variable {cursors : Cursors} {merges : Named (Merge Leaf)}

/-- Merges of leaves, kept at some depth. -/
def ofMerges (depth : Nat) (merges : Named (Merge Leaf)) : Cursors :=
  ⟨depth + 1, merges.map fun entry => (entry.1, .ofMerge depth entry.2)⟩

/-- The cursors are the given merges of leaves. -/
def Are (cursors : Cursors) (merges : Named (Merge Leaf)) : Prop :=
  cursors = .empty ∧ merges = [] ∨ ∃ depth, cursors = ofMerges depth merges

theorem Are.handles (h : cursors.Are merges) :
    cursors.handles = merges.flatMap fun entry => entry.2.heads.flatMap fun head => head.source.handles := by
  rcases h with ⟨rfl, rfl⟩ | ⟨depth, rfl⟩
  · rfl
  · rw [Cursors.handles, ofMerges, List.flatMap_map]
    congr 1
    funext entry
    exact Source.handles_ofMerge depth entry.2

theorem Are.addMerge (h : cursors.Are merges) (name : String) (merge : Merge Leaf) :
    (cursors.addMerge name merge).Are (merges.put name merge) := by
  rcases h with ⟨rfl, rfl⟩ | ⟨depth, rfl⟩
  · exact .inr ⟨0, rfl⟩
  · refine .inr ⟨depth + 1, ?_⟩
    have hdeepen : (ofMerges depth merges).deepen =
        merges.map fun entry => (entry.1, Source.ofMerge (depth + 1) entry.2) := List.map_map
    have hput := Named.put_map merges (Source.ofMerge (depth + 1)) name merge
    rw [← hdeepen] at hput
    exact congrArg (Cursors.mk (depth + 1 + 1)) hput

end Cursors

namespace Cursors

variable {cursors : Cursors} {depth : Nat} {merges : Named (Merge Leaf)} {name : String}

theorem Are.get?_of_none (h : cursors.Are merges) (hget : merges.get? name = none) :
    cursors.named.get? name = none := by
  rcases h with ⟨rfl, -⟩ | ⟨depth, rfl⟩
  · rfl
  · exact (Named.get?_map merges _ name).trans (congrArg _ hget)

theorem Are.of_get? {merge : Merge Leaf} (h : cursors.Are merges) (hget : merges.get? name = some merge) :
    ∃ depth, cursors = ofMerges depth merges := by
  rcases h with ⟨-, rfl⟩ | hsome
  · cases hget
  · exact hsome

theorem get?_ofMerges : (ofMerges depth merges).named.get? name =
    (merges.get? name).map (Source.ofMerge depth) := Named.get?_map merges _ name

theorem put_ofMerges (merge : Merge Leaf) :
    (⟨depth + 1, (ofMerges depth merges).named.put name (.ofMerge depth merge)⟩ : Cursors) =
      ofMerges depth (merges.put name merge) :=
  congrArg (Cursors.mk (depth + 1)) (Named.put_map merges (Source.ofMerge depth) name merge)

theorem erase_ofMerges : (⟨depth + 1, (ofMerges depth merges).named.erase name⟩ : Cursors) =
    ofMerges depth (merges.erase name) :=
  congrArg (Cursors.mk (depth + 1)) (Named.erase_map merges (Source.ofMerge depth) name)

end Cursors

namespace CursorStep

variable {session : Session} {name : String}

theorem next_of_none (h : session.cursors.named.get? name = none) :
    apply session name (.next 1) = (.error .noObject, session) := by
  rw [apply, source, h]

theorem next_of_some {found : Source session.cursors.depth} (h : session.cursors.named.get? name = some found) :
    apply session name (.next 1) = (.ok (.lookups [((reader session).next found).1]),
      replace session name ((reader session).next found).2) := by
  rw [apply, source, h]
  rfl

theorem drop_of_none (h : session.cursors.named.get? name = none) :
    apply session name .drop = (.error .noObject, session) := by
  rw [apply, source, h]

theorem drop_of_some {found : Source session.cursors.depth} (h : session.cursors.named.get? name = some found) :
    apply session name .drop = (.ok .done, { session with
      cursors := ⟨session.cursors.depth, session.cursors.named.erase name⟩ }) := by
  rw [apply, source, h]

end CursorStep

end LsmTree
