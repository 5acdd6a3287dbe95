import LsmTree.Proofs.MaintenanceSteps

/-!
# Writes in the layers of an engine

The writes since a directory was opened lie in the layers of its engine in their order: a first part of
them in the segments, the next ones in the tables that wait, oldest first, the last ones in the active
table. Each step of the engine keeps that order; it only moves the borders between the layers.

* **`Lays`** — the writes, with how many of them are in the segments;
* **`Lays.content_eq`** — the engine has what the writes make of what was there when it was opened;
* **`Lays.insert`**, **`Lays.drained`** — a write, and a step of maintenance that began with a freeze.
-/

namespace LsmTree

open Content (overlay ofSegments after)

/-- The writes over `base` lie in the layers of an engine, the first `settled` of them in its segments. -/
structure Lays (base : Content) (writes : List Entry) (settled : Nat) (memory : Memory)
    (engine : Engine) : Prop where
  sound : engine.Sound memory
  settled_le : settled ≤ writes.length
  segments : ofSegments engine.live = after base (writes.take settled)
  tables : ∃ part : Nat → List Entry,
    writes.drop settled = (engine.queue ++ [engine.active]).flatMap part ∧
    ∀ id ∈ engine.queue ++ [engine.active], (memory.table id).Holds (part id)

/-- Tables over older content, oldest first, make of it what the writes in them do. -/
theorem overlay_reverse {memory : Memory} {ids : List Nat} {part : Nat → List Entry}
    (h : ∀ id ∈ ids, (memory.table id).Holds (part id)) (base : Content) :
    overlay memory ids.reverse base = after base (ids.flatMap part) := by
  induction ids generalizing base with
  | nil => rfl
  | cons id rest ih =>
    rw [List.reverse_cons, Content.overlay_append, (h id (by simp)).overlay_eq,
      ih (fun other hmem => h other (by simp [hmem])), List.flatMap_cons, Content.after_append]

namespace Lays

variable {base : Content} {writes : List Entry} {settled : Nat} {memory : Memory} {engine : Engine}

/-- **An engine has what the writes make** of what was there when it was opened. -/
theorem content_eq (h : Lays base writes settled memory engine) :
    engine.content memory = after base writes := by
  obtain ⟨part, hdrop, hholds⟩ := h.tables
  have htables : engine.tables = (engine.queue ++ [engine.active]).reverse := by
    rw [List.reverse_append]
    rfl
  rw [Engine.content, htables, overlay_reverse hholds, h.segments, ← hdrop, ← Content.after_append,
    List.take_append_drop]

theorem start (hsound : engine.Sound memory) (hqueue : engine.queue = [])
    (hempty : (memory.table engine.active).isEmpty = true) :
    Lays (ofSegments engine.live) [] 0 memory engine where
  sound := hsound
  settled_le := Nat.le_refl _
  segments := rfl
  tables := by
    refine ⟨fun _ => [], by simp, fun id hmem => ?_⟩
    obtain rfl : id = engine.active := by simpa [hqueue] using hmem
    exact .of_isEmpty hempty

/-- **One more write** goes into the active table. -/
theorem insert (h : Lays base writes settled memory engine) (entry : Entry) :
    Lays base (writes ++ [entry]) settled (memory.insert engine.active entry) engine := by
  obtain ⟨part, hdrop, hholds⟩ := h.tables
  have hlength : (memory.insert engine.active entry).tables.length = memory.tables.length := by
    simp [Memory.insert]
  refine ⟨⟨?_, ?_, h.sound.ascending⟩, ?_, ?_, ?_⟩
  · rw [hlength]
    exact h.sound.active
  · rw [hlength]
    exact h.sound.waiting
  · rw [List.length_append]
    exact Nat.le_trans h.settled_le (Nat.le_add_right _ _)
  · rw [List.take_append_of_le_length h.settled_le]
    exact h.segments
  · refine ⟨fun id => if id = engine.active then part id ++ [entry] else part id, ?_, ?_⟩
    · have hqueue : engine.queue.flatMap (fun id =>
          if id = engine.active then part id ++ [entry] else part id) = engine.queue.flatMap part := by
        rw [List.flatMap_def, List.flatMap_def]
        refine congrArg List.flatten (List.map_congr_left fun id hmem => ?_)
        exact if_neg (h.sound.waiting id hmem).2
      rw [List.drop_append_of_le_length h.settled_le, hdrop, List.flatMap_append, List.flatMap_append,
        hqueue]
      simp
    · intro id hmem
      dsimp only
      rw [Memory.table_insert]
      by_cases hactive : id = engine.active
      · rw [if_pos ⟨hactive, h.sound.active⟩, if_pos hactive, ← hactive]
        exact (hholds id hmem).insert entry
      · rw [if_neg fun hboth => hactive hboth.1, if_neg hactive]
        exact hholds id hmem

end Lays

namespace Maintenance

variable {base : Content} {writes : List Entry} {settled : Nat} {start : Workspace}

/-- Freezing the active table leaves the writes where they are. -/
theorem lays_frozen (h : Lays base writes settled start.memory start.engine) :
    Lays base writes settled start.frozen.memory start.frozen.engine := by
  unfold Workspace.frozen
  split
  · exact h
  · obtain ⟨part, hdrop, hholds⟩ := h.tables
    have hold : ∀ id ∈ start.engine.queue ++ [start.engine.active],
        id ≠ start.memory.tables.length := by
      intro id hmem
      rcases List.mem_append.1 hmem with hmem | hmem
      · exact Nat.ne_of_lt (h.sound.waiting id hmem).1
      · exact List.mem_singleton.1 hmem ▸ Nat.ne_of_lt h.sound.active
    have hsound := sound_frozen h.sound
    rw [Workspace.frozen, if_neg ‹_›] at hsound
    refine ⟨hsound, h.settled_le, h.segments,
      fun id => if id = start.memory.tables.length then [] else part id, ?_, fun id hmem => ?_⟩
    · have hparts : (start.engine.queue ++ [start.engine.active]).flatMap (fun id =>
          if id = start.memory.tables.length then [] else part id) =
            (start.engine.queue ++ [start.engine.active]).flatMap part := by
        rw [List.flatMap_def, List.flatMap_def]
        exact congrArg List.flatten (List.map_congr_left fun id hmem => if_neg (hold id hmem))
      rw [List.flatMap_append, hparts, hdrop]
      simp [Memory.newTable]
    · dsimp only
      rw [Memory.table_newTable]
      rcases List.mem_append.1 hmem with hmem | hmem
      · rw [if_neg (hold id hmem)]
        exact hholds id hmem
      · obtain rfl : id = start.memory.tables.length := by simpa [Memory.newTable] using hmem
        rw [if_pos rfl, ← Memory.table_newTable]
        exact .of_isEmpty (Memory.isEmpty_newTable start.memory)

/-- **A step of maintenance** moves the oldest of the writes into the segments, and keeps their order. -/
theorem Drained.lays {written rest : List Nat} {handed : Nat} {last : Workspace}
    (hdrained : Drained written rest handed start last) (hqueue : written ++ rest = start.engine.queue)
    (h : Lays base writes settled start.memory start.engine) :
    ∃ settled', settled ≤ settled' ∧ Lays base writes settled' last.memory last.engine ∧
      (rest = [] → (start.memory.table start.engine.active).isEmpty = true →
        settled' = writes.length) := by
  obtain ⟨part, hdrop, hholds⟩ := h.tables
  rw [← hqueue] at hholds
  rw [← hqueue, List.append_assoc, List.flatMap_append] at hdrop
  have htables : ∀ id, last.memory.table id = start.memory.table id := Memory.table_congr hdrained.tables
  have hlength : (written.flatMap part).length ≤ (writes.drop settled).length := by
    rw [hdrop, List.length_append]
    exact Nat.le_add_right _ _
  have htake : writes.take (settled + (written.flatMap part).length) =
      writes.take settled ++ written.flatMap part := by
    rw [List.take_add, hdrop, List.take_left']
    rfl
  have hlater : writes.drop (settled + (written.flatMap part).length) =
      (rest ++ [start.engine.active]).flatMap part := by
    rw [← List.drop_drop, hdrop, List.drop_left']
    rfl
  refine ⟨settled + (written.flatMap part).length, Nat.le_add_right _ _, ⟨⟨?_, ?_, ?_⟩, ?_, ?_, ?_⟩, ?_⟩
  · rw [hdrained.active, hdrained.tables]
    exact h.sound.active
  · rw [hdrained.queue, hdrained.active, hdrained.tables]
    exact fun id hmem => h.sound.waiting id (hqueue ▸ List.mem_append_right _ hmem)
  · exact hdrained.ascending
  · rw [List.length_drop] at hlength
    have := h.settled_le
    omega
  · rw [hdrained.content, h.segments, htake, Content.after_append]
    exact overlay_reverse (fun id hmem => hholds id (by simp [hmem])) _
  · rw [hdrained.queue, hdrained.active]
    refine ⟨part, hlater, fun id hmem => ?_⟩
    rw [htables]
    exact hholds id (by rw [List.append_assoc]; exact List.mem_append_right _ hmem)
  · rintro rfl hempty
    -- Nothing was written into an empty table.
    have hnil : part start.engine.active = [] := (hholds _ (by simp)).writes_eq_nil hempty
    rw [List.nil_append, List.flatMap_singleton, hnil] at hlater
    rw [List.length_drop] at hlength
    have := List.drop_eq_nil_iff.1 hlater
    have := h.settled_le
    omega

theorem Progress.lays {handed : Nat} {complete : Prop} {last : Workspace}
    (hprogress : Progress start handed complete last)
    (h : Lays base writes settled start.memory start.engine) :
    ∃ settled', settled ≤ settled' ∧ Lays base writes settled' last.memory last.engine ∧
      (complete → settled' = writes.length) := by
  obtain ⟨written, rest, hqueue, hdrained, hall⟩ := hprogress.drained
  obtain ⟨settled', hle, hlays, hcomplete⟩ := hdrained.lays hqueue (lays_frozen h)
  exact ⟨settled', hle, hlays, fun hc => hcomplete (hall hc) isEmpty_frozen⟩

end Maintenance

theorem Engine.lays_ofSegments (memory : Memory) (config : Config) (manager : Manager)
    {segments : List Segment} (hasc : ∀ segment ∈ segments, Ascending segment.entries) :
    Lays (Content.ofSegments segments) [] 0 (Engine.ofSegments memory config manager segments).2
      (Engine.ofSegments memory config manager segments).1 := by
  let opened := Engine.ofSegments memory config manager segments
  have hlive : opened.1.live = segments := Memory.segment_adoptAll memory config.dataDir segments
  have hsound : opened.1.Sound opened.2 := by
    refine ⟨?_, ?_, ?_⟩
    · simp [opened, Engine.ofSegments, Memory.newTable]
    · simp [opened, Engine.ofSegments]
    · rwa [hlive]
  have hlays : Lays (Content.ofSegments opened.1.live) [] 0 opened.2 opened.1 :=
    Lays.start hsound rfl (Memory.isEmpty_newTable _)
  rwa [hlive] at hlays

end LsmTree
