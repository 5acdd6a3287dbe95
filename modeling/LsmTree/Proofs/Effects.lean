import LsmTree.Proofs.MaintenanceSteps
import LsmTree.Proofs.SegmentRoundTrip

/-!
# What maintenance does to the files

Where no file is under a name that maintenance wants, each of its steps has just one of two effects on the
directory: the files of one segment are added and the manifest is replaced, or nothing at all is changed.
A flush is a row of such steps, so what it leaves is told by how many tables it got to:

* **`segmentsOf`** — the segments that tables become, and **`Extends`** — a directory to which segments
  were added by a commit;
* **`Maintenance.runs_flushTables_exact`** — the tables that a flush got to, and what kept it from the
  next one; **`Maintenance.Flushes`** is what a flush, or a closing, leaves by that;
* **`Maintenance.runs_compact_exact`** — a compaction leaves things as they were, or has replaced all
  layers by one, as **`Maintenance.Unites`** says.
-/

namespace LsmTree

open Snapshot (Removed Restored)

/-! ## Segments added to a directory -/

/-- A commit has added segments to a directory: their files are there, the manifest is the given one, and
every other name holds what it held. -/
structure Extends (manifest : Manifest) (added : List Segment) (s t : Snapshot) : Prop where
  written : ∃ bytes, manifest.encode = .ok bytes ∧ t.holding FileName.manifest = .file bytes
  files : ∀ segment ∈ added, ∀ half, t.holding (FileName.segment half segment.generation) =
    .file (Layout.file segment.entries half)
  same : ∀ name, name ≠ FileName.manifest → name ∉ filesOf added → t.holding name = s.holding name

namespace Extends

variable {manifest manifest' : Manifest} {added more : List Segment} {s t u : Snapshot}

/-- A commit where no file was in the way. -/
theorem of_commits {generation : UInt64} {built : Option Segment}
    (h : Commits generation built manifest s t)
    (hclear : ∀ name ∈ FileName.temporary FileName.manifest :: FileName.ofGeneration generation, ∀ bytes,
      s.holding name ≠ .file bytes) : Extends manifest built.toList s t := by
  refine ⟨h.written, fun segment hmem => (h.stored segment (Option.mem_toList.1 hmem)).2.holding_eq,
    fun name hmanifest hname => ?_⟩
  -- Under a name that the commit needs there was no file that it could have taken away.
  by_cases hwanted : name ∈ FileName.temporary FileName.manifest :: FileName.ofGeneration generation
  · refine (h.rest name hmanifest hname).resolve_right ?_
    rintro ⟨bytes, hfile⟩
    exact hclear name hwanted bytes hfile
  · exact h.within.same name fun hmem => hwanted ((List.mem_cons.1 hmem).resolve_left hmanifest)

theorem of_same (h : Extends manifest added s t) (hsame : ∀ name, u.holding name = t.holding name) :
    Extends manifest added s u := by
  obtain ⟨bytes, hencode, hwritten⟩ := h.written
  exact ⟨⟨bytes, hencode, (hsame _).trans hwritten⟩,
    fun segment hmem half => (hsame _).trans (h.files segment hmem half),
    fun name hmanifest hname => (hsame _).trans (h.same name hmanifest hname)⟩

/-- One commit after another, to segments of other generations. -/
theorem trans (h : Extends manifest added s t) (h' : Extends manifest' more t u)
    (hother : ∀ segment ∈ added, ∀ other ∈ more, other.generation ≠ segment.generation) :
    Extends manifest' (more ++ added) s u := by
  have hfiles : ∀ {name : String}, name ∈ filesOf (more ++ added) ↔
      name ∈ filesOf more ∨ name ∈ filesOf added := by
    intro name
    rw [filesOf, List.flatMap_append, List.mem_append]
    rfl
  refine ⟨h'.written, fun segment hmem half => ?_, fun name hmanifest hname => ?_⟩
  · rcases List.mem_append.1 hmem with hmore | hadded
    · exact h'.files segment hmore half
    · -- The later commit leaves the files of the segments before, which are of other generations.
      rw [h'.same _ (FileName.segment_ne_manifest _ _) fun hname => ?_]
      · exact h.files segment hadded half
      · obtain ⟨other, hother', half', hname⟩ := mem_filesOf.1 hname
        exact hother segment hadded other hother' (FileName.segment_injective hname).2.symm
  · rw [h'.same name hmanifest fun hmem => hname (hfiles.2 (.inl hmem))]
    exact h.same name hmanifest fun hmem => hname (hfiles.2 (.inr hmem))

end Extends

/-! ## Tables as segments -/

/-- The segments that tables become, newest first, if the oldest one is of the given generation. -/
def segmentsOf (memory : Memory) (generation : UInt64) : List Nat → List Segment
  | [] => []
  | table :: rest => segmentsOf memory (generation + 1) rest ++
      [Segment.ofEntries generation (memory.table table).entries]

theorem segmentsOf_congr {memory memory' : Memory} (h : ∀ id, memory'.table id = memory.table id)
    (generation : UInt64) (tables : List Nat) :
    segmentsOf memory' generation tables = segmentsOf memory generation tables := by
  induction tables generalizing generation with
  | nil => rfl
  | cons table rest ih => rw [segmentsOf, segmentsOf, ih, h]

theorem segmentsOf_append (memory : Memory) (generation : UInt64) (older newer : List Nat) :
    segmentsOf memory generation (older ++ newer) =
      segmentsOf memory (generation + .ofNat older.length) newer ++ segmentsOf memory generation older := by
  induction older generalizing generation with
  | nil => exact (List.append_nil _).symm ▸ congrArg (segmentsOf memory · newer) (UInt64.add_zero _).symm
  | cons table rest ih =>
    rw [List.cons_append, segmentsOf, segmentsOf, ih, List.append_assoc, List.length_cons, UInt64.ofNat_add,
      UInt64.add_assoc, UInt64.add_comm 1]
    rfl

theorem mem_segmentsOf {memory : Memory} {generation : UInt64} {tables : List Nat} {table : Nat}
    (h : table ∈ tables) : ∃ other, Segment.ofEntries other (memory.table table).entries ∈
      segmentsOf memory generation tables := by
  obtain ⟨older, newer, rfl⟩ := List.append_of_mem h
  rw [segmentsOf_append, segmentsOf]
  exact ⟨_, List.mem_append_left _ (List.mem_append_right _ (List.mem_singleton.2 rfl))⟩

theorem generation_of_mem_segmentsOf {memory : Memory} {generation : UInt64} {tables : List Nat}
    {segment : Segment} (h : segment ∈ segmentsOf memory generation tables) :
    ∃ i < tables.length, segment.generation = generation + .ofNat i := by
  induction tables generalizing generation with
  | nil => cases h
  | cons table rest ih =>
    rcases List.mem_append.1 h with hnewer | hfirst
    · obtain ⟨i, hlt, hgeneration⟩ := ih hnewer
      refine ⟨i + 1, Nat.succ_lt_succ hlt, ?_⟩
      rw [hgeneration, UInt64.add_assoc, UInt64.ofNat_add, UInt64.add_comm 1]
      rfl
    · rw [List.mem_singleton.1 hfirst]
      exact ⟨0, Nat.succ_pos _, (UInt64.add_zero _).symm⟩

/-! ## Tables that are written out -/

/-- The tables that maintenance writes out, oldest first: those that wait, and the one that takes the
writes unless it is empty. -/
def Engine.waiting (memory : Memory) (engine : Engine) : List Nat :=
  engine.queue ++ if (memory.table engine.active).isEmpty then [] else [engine.active]

/-- No table that waits is empty. -/
def Engine.Filled (memory : Memory) (engine : Engine) : Prop :=
  ∀ id ∈ engine.queue, (memory.table id).isEmpty = false

theorem Engine.Filled.waiting {memory : Memory} {engine : Engine} (h : engine.Filled memory) :
    ∀ id ∈ engine.waiting memory, (memory.table id).isEmpty = false := by
  intro id hmem
  rcases List.mem_append.1 hmem with hqueue | hactive
  · exact h id hqueue
  · split at hactive
    · cases hactive
    · next hsome =>
      rw [List.mem_singleton.1 hactive]
      exact Bool.eq_false_iff.2 hsome

/-- A table of the engine that has an entry is among them. -/
theorem Engine.mem_waiting {memory : Memory} {engine : Engine} {id : Nat} {entry : Entry}
    (h : id ∈ engine.queue ++ [engine.active]) (hentry : entry ∈ (memory.table id).entries) :
    id ∈ engine.waiting memory := by
  rcases List.mem_append.1 h with hqueue | hactive
  · exact List.mem_append_left _ hqueue
  · obtain rfl := List.mem_singleton.1 hactive
    have hsome : ¬ (memory.table engine.active).isEmpty = true := fun hempty =>
      List.not_mem_nil (List.isEmpty_iff.1 hempty ▸ hentry)
    rw [Engine.waiting, if_neg hsome]
    exact List.mem_append_right _ (List.mem_singleton.2 rfl)

namespace Maintenance

variable {start middle after : Workspace} {entries : List Entry} {listed : List Segment}

/-! ## Names that are free of files -/

/-- No file is under a name that maintenance wants: that of a new manifest, and those of the generations
that were not handed out. -/
structure Workspace.Clear (workspace : Workspace) : Prop where
  manifest : ∀ bytes, workspace.snapshot.holding (FileName.temporary FileName.manifest) ≠ .file bytes
  generations : ∀ generation, workspace.next ≤ generation → ∀ name ∈ FileName.ofGeneration generation,
    ∀ bytes, workspace.snapshot.holding name ≠ .file bytes

theorem Workspace.Clear.wanted (h : start.Clear) : ∀ name ∈ FileName.temporary FileName.manifest ::
    FileName.ofGeneration start.next, ∀ bytes, start.snapshot.holding name ≠ .file bytes := by
  intro name hname
  rcases List.mem_cons.1 hname with rfl | hname
  · exact h.manifest
  · exact h.generations _ (UInt64.le_refl _) name hname

theorem clear_frozen (h : start.Clear) : start.frozen.Clear := by
  have hsnapshot : start.frozen.snapshot = start.snapshot := congrArg Disk.snapshot frozen_disk
  have hnext : start.frozen.next = start.next := congrArg Manager.next frozen_manager
  exact ⟨by rw [hsnapshot]; exact h.manifest, by rw [hsnapshot, hnext]; exact h.generations⟩

/-- **A step that fails** changes nothing in a directory that is clear of files. -/
theorem Fails.same (h : Fails entries listed start after) (hclear : start.Clear) (name : String) :
    after.snapshot.holding name = start.snapshot.holding name :=
  h.restored.holding hclear.wanted name

/-! ## Writing tables out -/

/-- The tables in `written`, the oldest that waited, have been written out; those in `rest` still wait, and
nothing else is changed. -/
structure Flushed (written rest : List Nat) (start after : Workspace) : Prop where
  queue : after.engine.queue = rest
  live : after.engine.live = segmentsOf start.memory start.next written ++ start.engine.live
  tables : ∀ id, after.memory.table id = start.memory.table id
  untouched : written = [] → ∀ name, after.snapshot.holding name = start.snapshot.holding name
  committed : written ≠ [] → Extends
    (Manifest.current (start.next + .ofNat written.length) (after.engine.live.reverse.map Segment.info))
    (segmentsOf start.memory start.next written) start.snapshot after.snapshot

theorem Flushed.of_same {written rest : List Nat} (h : Flushed written rest start middle)
    (hengine : after.engine = middle.engine) (hmemory : after.memory = middle.memory)
    (hsame : ∀ name, after.snapshot.holding name = middle.snapshot.holding name) :
    Flushed written rest start after := by
  refine ⟨hengine ▸ h.queue, hengine ▸ h.live, hmemory ▸ h.tables,
    fun hnil name => (hsame name).trans (h.untouched hnil name), fun hne => ?_⟩
  rw [hengine]
  exact (h.committed hne).of_same hsame

/-- What keeps a table from being written out after those in `written`. -/
def Workspace.HinderedAt (workspace : Workspace) (written : List Nat) (table : Nat) : Prop :=
  Manager.Hindered workspace.snapshot (workspace.next + .ofNat written.length)
      (workspace.memory.table table).entries ∨
    (Manifest.current (workspace.next + .ofNat (written.length + 1))
      ((segmentsOf workspace.memory workspace.next (written ++ [table]) ++
        workspace.engine.live).reverse.map Segment.info)).Hindered workspace.snapshot

/-- **Writing a table out** where no file is in the way. -/
theorem runs_writeTable_flushed {table : Nat} {rest : List Nat} (hu : start.snapshot.Unshared)
    (hclear : start.Clear) (hqueue : start.engine.queue = table :: rest)
    (hsome : (start.memory.table table).isEmpty = false) :
    Runs (writeTable table rest).run start
      (fun result after => match result with
        | .ok _ => Flushed [table] rest start after ∧ after.next = start.next + 1 ∧
            after.snapshot.Unshared
        | .error _ => Flushed [] (table :: rest) start after ∧ start.HinderedAt [] table)
      (fun _ => True) := by
  have hmade : some (Segment.ofEntries start.next (start.memory.table table).entries) =
      segmentOf? start.next (start.memory.table table).entries := by
    rw [segmentOf?, if_neg]
    exact Bool.eq_false_iff.1 hsome
  refine (runs_writeTable_exact table rest hmade hu).mono ?_ fun _ _ => trivial
  rintro (error | ⟨⟩) after hpost -
  · have hstate := hpost.state
    refine ⟨⟨?_, ?_, ?_, fun _ => hpost.same hclear, fun hne => absurd rfl hne⟩, hpost.hindered.imp ?_ id⟩
    · rw [hstate]
      exact hqueue
    · rw [hstate]
      rfl
    · intro id
      rw [hstate]
      rfl
    · intro hhindered
      rwa [← UInt64.add_zero start.next] at hhindered
  · obtain ⟨hafter, -, hsegment⟩ := hpost
    obtain ⟨-, hcommits⟩ := hsegment _ rfl
    have hlive : after.engine.live = segmentsOf start.memory start.next [table] ++ start.engine.live := by
      rw [hafter]
      exact live_taking _ _ _ _
    refine ⟨⟨?_, hlive, ?_, ?_, fun _ => ?_⟩, ?_, hcommits.within.unshared⟩
    · rw [hafter]
      rfl
    · rw [hafter]
      exact Memory.table_congr (Memory.tables_adoptAll _ _ _)
    · rintro ⟨⟩
    · rw [hlive]
      exact .of_commits hcommits hclear.wanted
    · rw [hafter]
      rfl

section Row

variable {table : Nat} {written rest rest' : List Nat}

/-- A generation that was not handed out before a table was written out, nor for it. -/
theorem ne_next_of_le (hroom : start.next.toNat + 1 < UInt64.size) {generation : UInt64}
    (hle : start.next + 1 ≤ generation) : start.next ≠ generation := by
  rw [UInt64.le_iff_toNat_le, Kept.toNat_succ hroom] at hle
  rintro rfl
  omega

/-- Names that are wanted later hold what they held, once a table is written out. -/
theorem Flushed.later (h : Flushed [table] rest start middle) (hroom : start.next.toNat + 1 < UInt64.size)
    {generation : UInt64} (hle : start.next + 1 ≤ generation) {name : String}
    (hname : name ∈ FileName.temporary FileName.manifest :: FileName.ofGeneration generation) :
    middle.snapshot.holding name = start.snapshot.holding name := by
  refine (h.committed (List.cons_ne_nil _ _)).same name ?_ fun hmem => ?_
  · rintro rfl
    rcases List.mem_cons.1 hname with hname | hname
    · exact FileName.temporary_manifest_ne_manifest hname.symm
    · exact FileName.manifest_not_mem_ofGeneration _ hname
  · obtain ⟨segment, hsegment, half, rfl⟩ := mem_filesOf.1 hmem
    rcases List.mem_cons.1 hname with hname | hname
    · exact FileName.temporary_manifest_ne_segment _ _ hname.symm
    · rw [FileName.segment_mem_ofGeneration, List.mem_singleton.1 hsegment] at hname
      exact ne_next_of_le hroom hle hname

theorem Flushed.clear (h : Flushed [table] rest start middle) (hroom : start.next.toNat + 1 < UInt64.size)
    (hnext : middle.next = start.next + 1) (hclear : start.Clear) : middle.Clear := by
  refine ⟨fun bytes hfile => ?_, fun generation hle name hname bytes hfile => ?_⟩
  · rw [h.later hroom (UInt64.le_refl _) List.mem_cons_self] at hfile
    exact hclear.manifest bytes hfile
  · rw [hnext] at hle
    rw [h.later hroom hle (List.mem_cons_of_mem _ hname)] at hfile
    exact hclear.generations generation (UInt64.le_trans (Kept.le_succ hroom) hle) name hname bytes hfile

/-- Tables written out after the first one. -/
theorem Flushed.cons (h : Flushed [table] rest start middle) (hnext : middle.next = start.next + 1)
    (hroom : start.next.toNat + (written.length + 1) < UInt64.size)
    (h' : Flushed written rest' middle after) : Flushed (table :: written) rest' start after := by
  have hsegments : segmentsOf middle.memory middle.next written =
      segmentsOf start.memory (start.next + 1) written := by
    rw [segmentsOf_congr h.tables, hnext]
  have hlive : after.engine.live =
      segmentsOf start.memory start.next (table :: written) ++ start.engine.live := by
    rw [h'.live, hsegments, h.live, ← List.append_assoc]
    rfl
  refine ⟨h'.queue, hlive, fun id => (h'.tables id).trans (h.tables id),
    fun hnil => absurd hnil (List.cons_ne_nil _ _), fun _ => ?_⟩
  have hfirst := h.committed (List.cons_ne_nil _ _)
  -- If the first table is the last one to be written out, its commit is all there is to tell.
  by_cases hnone : written = []
  · subst hnone
    have hsame : after.engine.live = middle.engine.live := h'.live
    rw [hsame]
    exact hfirst.of_same (h'.untouched rfl)
  · have hrest := h'.committed hnone
    rw [hsegments, hnext, UInt64.add_assoc, UInt64.add_comm 1] at hrest
    rw [List.length_cons, UInt64.ofNat_add]
    refine hfirst.trans hrest fun segment hsegment other hother => ?_
    obtain ⟨i, hlt, hgeneration⟩ := generation_of_mem_segmentsOf hother
    have hsucc : (start.next + 1).toNat = start.next.toNat + 1 := Kept.toNat_succ (by omega)
    rw [hgeneration, List.mem_singleton.1 hsegment]
    refine (ne_next_of_le (by omega) ?_).symm
    rw [UInt64.le_iff_toNat_le, toNat_add_ofNat (by omega)]
    omega

/-- What keeps a later table from being written out was there at the start. -/
theorem Flushed.hindered {later : Nat} (h : Flushed [table] rest start middle)
    (hnext : middle.next = start.next + 1) (hroom : start.next.toNat + (written.length + 1) < UInt64.size)
    (h' : middle.HinderedAt written later) : start.HinderedAt (table :: written) later := by
  have hfirst : start.next.toNat + 1 < UInt64.size := by omega
  have hgeneration : ∀ count : Nat, middle.next + .ofNat count = start.next + .ofNat (count + 1) := by
    intro count
    rw [hnext, UInt64.ofNat_add, UInt64.add_assoc, UInt64.add_comm 1]
    rfl
  rcases h' with hbuild | hcommit
  · rw [hgeneration, h.tables] at hbuild
    refine .inl (hbuild.imp_left ?_)
    rintro ⟨name, hname, hfolder⟩
    refine ⟨name, hname, ?_⟩
    rw [← h.later hfirst ?_ (List.mem_cons_of_mem _ hname)]
    · exact hfolder
    · rw [UInt64.le_iff_toNat_le, Kept.toNat_succ hfirst, toNat_add_ofNat hroom]
      omega
  · have hlisted : segmentsOf middle.memory middle.next (written ++ [later]) ++ middle.engine.live =
        segmentsOf start.memory start.next ((table :: written) ++ [later]) ++ start.engine.live := by
      rw [segmentsOf_congr h.tables, hnext, h.live, ← List.append_assoc]
      rfl
    rw [hgeneration, hlisted] at hcommit
    refine .inr (hcommit.imp_right fun hfolder => ?_)
    rcases hfolder with hfolder | hfolder
    · left
      rw [← h.later hfirst (UInt64.le_refl _) List.mem_cons_self]
      exact hfolder
    · -- The first table was committed, so the manifest is a file.
      obtain ⟨bytes, -, hfile⟩ := (h.committed (List.cons_ne_nil _ _)).written
      rw [hfile] at hfolder
      cases hfolder

end Row

/-- **Writing the waiting tables out**, oldest first, where no file is in the way: all of them are written
out, or those before one that something stands in the way of. The induction is on the tables that still
wait; each step leaves the directory clear for the next one. -/
theorem runs_flushTables_exact {tables : List Nat} (hu : start.snapshot.Unshared) (hclear : start.Clear)
    (hqueue : start.engine.queue = tables)
    (hsome : ∀ table ∈ tables, (start.memory.table table).isEmpty = false)
    (hroom : start.next.toNat + attempts tables start < UInt64.size) :
    Runs (flushTables tables).run start
      (fun result after => match result with
        | .ok _ => Flushed tables [] start after ∧ tables.length = attempts tables start
        | .error _ => ∃ written table rest, written ++ table :: rest = tables ∧
            written.length < attempts tables start ∧ Flushed written (table :: rest) start after ∧
            start.HinderedAt written table)
      (fun _ => True) := by
  induction tables generalizing start with
  | nil =>
    exact Runs.pure _ ⟨⟨hqueue, rfl, fun _ => rfl, fun _ _ => rfl, fun hne => absurd rfl hne⟩, rfl⟩ trivial
  | cons table rest ih =>
    rw [flushTables_cons]
    refine Runs.andThen (runs_writeTable_flushed hu hclear hqueue (hsome table List.mem_cons_self)).withRun
      ?_ ?_
    · rintro ⟨⟩ middle - ⟨⟨hfirst, hnext, hunshared⟩, hrun⟩
      rw [attempts_of_ok hrun] at hroom ⊢
      have hsucc : start.next.toNat + 1 < UInt64.size := by omega
      have hsome' : ∀ id ∈ rest, (middle.memory.table id).isEmpty = false := fun id hmem => by
        rw [hfirst.tables]
        exact hsome id (List.mem_cons_of_mem _ hmem)
      have hroom' : middle.next.toNat + attempts rest middle < UInt64.size := by
        rw [hnext, Kept.toNat_succ hsucc]
        omega
      refine (ih hunshared (hfirst.clear hsucc hnext hclear) hfirst.queue hsome' hroom').mono ?_
        fun _ ht => ht
      rintro (error | ⟨⟩) after hpost -
      · obtain ⟨written, later, rest', rfl, hlt, hflushed, hhindered⟩ := hpost
        exact ⟨table :: written, later, rest', rfl, by rw [List.length_cons]; omega,
          hfirst.cons hnext (by omega) hflushed, hfirst.hindered hnext (by omega) hhindered⟩
      · obtain ⟨hflushed, hlength⟩ := hpost
        exact ⟨hfirst.cons hnext (by omega) hflushed, by rw [List.length_cons]; omega⟩
    · rintro error after ⟨⟨hflushed, hhindered⟩, hrun⟩
      exact ⟨[], table, rest, rfl, attempts_pos (List.cons_ne_nil _ _) _, hflushed, hhindered⟩

/-! ## Flushing -/

theorem frozen_queue_eq : start.frozen.engine.queue = start.engine.waiting start.memory := by
  unfold Workspace.frozen Engine.waiting
  split
  · exact (List.append_nil _).symm
  · rfl

theorem Flushed.of_frozen {written rest : List Nat} (h : Flushed written rest start.frozen after) :
    Flushed written rest start after := by
  obtain ⟨hqueue, hlive, htables, huntouched, hcommitted⟩ := h
  simp only [Workspace.next, Workspace.snapshot, frozen_manager, frozen_disk, frozen_live,
    segmentsOf_congr table_frozen] at hlive huntouched hcommitted
  exact ⟨hqueue, hlive, fun id => (htables id).trans (table_frozen id), huntouched, hcommitted⟩

theorem hinderedAt_frozen {written : List Nat} {table : Nat} (h : start.frozen.HinderedAt written table) :
    start.HinderedAt written table := by
  simpa only [Workspace.HinderedAt, Workspace.next, Workspace.snapshot, frozen_manager, frozen_disk,
    frozen_live, table_frozen, segmentsOf_congr table_frozen] using h

/-- What a flush has done that got to the end, or to a table that something stands in the way of. -/
def Flushes (start : Workspace) (result : Except Error Unit) (after : Workspace) : Prop :=
  match result with
  | .ok _ => Flushed (start.engine.waiting start.memory) [] start after
  | .error _ => ∃ written table rest, written ++ table :: rest = start.engine.waiting start.memory ∧
      written.length < flushed start ∧ Flushed written (table :: rest) start after ∧
      start.HinderedAt written table

theorem runs_flushAll_exact (hu : start.snapshot.Unshared) (hclear : start.Clear)
    (hfilled : start.engine.Filled start.memory) (hroom : start.next.toNat + flushed start < UInt64.size) :
    Runs flushAll.run start (Flushes start) (fun _ => True) := by
  have hu' : start.frozen.snapshot.Unshared := by
    rw [Workspace.snapshot, frozen_disk]
    exact hu
  have hsome : ∀ table ∈ start.frozen.engine.queue, (start.frozen.memory.table table).isEmpty = false := by
    rw [frozen_queue_eq]
    intro table hmem
    rw [table_frozen]
    exact hfilled.waiting table hmem
  have hroom' : start.frozen.next.toNat + attempts start.frozen.engine.queue start.frozen <
      UInt64.size := by
    rw [Workspace.next, frozen_manager]
    exact hroom
  refine Runs.of_run_eq (flushTables start.frozen.engine.queue).run start.frozen frozen_disk run_flushAll
    ((runs_flushTables_exact hu' (clear_frozen hclear) rfl hsome hroom').mono ?_ fun _ ht => ht)
  rw [frozen_queue_eq]
  rintro (error | ⟨⟩) after hpost -
  · obtain ⟨written, table, rest, hqueue, hlt, hflushed, hhindered⟩ := hpost
    rw [← frozen_queue_eq] at hlt
    exact ⟨written, table, rest, hqueue, hlt, hflushed.of_frozen, hinderedAt_frozen hhindered⟩
  · exact hpost.1.of_frozen

/-- **A flush** of an open engine where no file is in the way. -/
theorem runs_flush_exact (hopen : start.engine.closed = false) (hu : start.snapshot.Unshared)
    (hclear : start.Clear) (hfilled : start.engine.Filled start.memory)
    (hroom : start.next.toNat + flushed start < UInt64.size) :
    Runs flush.run start (Flushes start) (fun _ => True) :=
  Runs.of_run_eq flushAll.run start rfl (run_flush hopen) (runs_flushAll_exact hu hclear hfilled hroom)

/-- **A closing** of an open engine where no file is in the way. -/
theorem runs_close_exact (hopen : start.engine.closed = false) (hu : start.snapshot.Unshared)
    (hclear : start.Clear) (hfilled : start.engine.Filled start.memory)
    (hroom : start.next.toNat + flushed start < UInt64.size) :
    Runs close.run start
      (fun result after => match result with
        | .ok _ => ∃ last, Flushes start (.ok ()) last ∧ after = last.emptied
        | .error error => Flushes start (.error error) after)
      (fun _ => True) := by
  refine Runs.of_run_eq closeOpen.run start rfl (run_close hopen) ?_
  refine Runs.andThen (runs_flushAll_exact hu hclear hfilled hroom) ?_ ?_
  · rintro ⟨⟩ last - hflushes
    exact Runs.of_disk_eq rfl rfl ⟨last, hflushes, rfl⟩ trivial
  · exact fun error after hflushes => hflushes

/-! ## Compacting -/

/-- What all layers of an engine come to. -/
def Workspace.merge (workspace : Workspace) : List Entry :=
  compacted workspace.frozen.memory workspace.frozen.engine

/-- The segment that they become, if any entry is left. -/
def Workspace.union? (workspace : Workspace) : Option Segment :=
  segmentOf? workspace.next workspace.merge

/-- What a compaction has done that replaced all layers by one: the segment that they became is committed
alone, and the files of the segments before are taken away unless they are in use. -/
structure Unites (inUse : Handle → Bool) (start : Workspace) (replaced : List Handle)
    (after : Workspace) : Prop where
  state : after = { start.frozen.taking start.union? [] [] with disk := after.disk }
  replaced : replaced = start.engine.segments.filter inUse
  holds : start.union?.elim [] Segment.entries = start.merge
  files : ∃ s, Commits start.next start.union?
      (Manifest.current (start.next + 1) (start.union?.toList.reverse.map Segment.info)) start.snapshot s ∧
    Removed (filesOf ((start.engine.segments.filter fun handle => ¬ inUse handle).map Handle.segment))
      s after.snapshot

/-- What a compaction has done: nothing if there are no layers, and otherwise it has replaced them by one, or
failed. -/
def Compacts (inUse : Handle → Bool) (start : Workspace) (result : Except Error (List Handle))
    (after : Workspace) : Prop :=
  match result with
  | .ok replaced => start.frozen.isBare = true ∧ replaced = [] ∧ after = start.frozen ∨
      start.frozen.isBare = false ∧ Unites inUse start replaced after
  | .error _ => Fails start.merge start.union?.toList start.frozen after

/-- **A compaction** of an open engine. -/
theorem runs_compact_exact (inUse : Handle → Bool) (hopen : start.engine.closed = false)
    (hu : start.snapshot.Unshared) :
    Runs (compact inUse).run start (Compacts inUse start) (fun _ => True) := by
  refine Runs.of_run_eq _ start.frozen frozen_disk (run_compact inUse hopen) ?_
  by_cases hbare : start.frozen.isBare = true
  · rw [if_pos hbare]
    exact Runs.pure _ (.inl ⟨hbare, rfl, rfl⟩) trivial
  · rw [if_neg hbare]
    have hu' : start.frozen.snapshot.Unshared := by
      rw [Workspace.snapshot, frozen_disk]
      exact hu
    have hmade : start.union? =
        segmentOf? start.frozen.next (compacted start.frozen.memory start.frozen.engine) := by
      rw [Workspace.next, frozen_manager]
      rfl
    refine (runs_compactLayers_exact inUse hmade hu').mono ?_ fun _ _ => trivial
    rintro (error | replaced) after hpost -
    · exact hpost
    · obtain ⟨hstate, hreplaced, hholds, hfiles⟩ := hpost
      rw [frozen_segments] at hreplaced hfiles
      rw [Workspace.next, Workspace.snapshot, frozen_manager, frozen_disk] at hfiles
      exact .inr ⟨Bool.eq_false_iff.2 hbare, hstate, hreplaced, hholds, hfiles⟩

end Maintenance

end LsmTree
