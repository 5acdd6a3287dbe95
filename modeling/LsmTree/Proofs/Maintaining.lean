import LsmTree.Proofs.Committed
import LsmTree.Proofs.Overlay

/-!
# Writing tables out

Maintenance hands out a generation, builds a segment under its names and commits it. Until the commit the
directory is committed as it was, and from the commit on as the engine is afterwards:

* **`Maintenance.runs_build`**, **`Maintenance.runs_commit`** — the two halves of such a step;
* **`Drained`** — an engine some of whose waiting tables, the oldest ones, have been written out;
* **`Maintenance.runs_flushTables`** — the tables are written out oldest first, each committed before the
  next, so that a crash finds the first of them committed and no other.
-/

namespace LsmTree

open Snapshot (Within Restored Gains)

/-- Reopening the directory shows the given content, with generations below the limit. -/
def Shows (limit : Nat) (content : Content) (snapshot : Snapshot) : Prop :=
  ∃ recorded next segments, Kept recorded next segments snapshot ∧ next.toNat ≤ limit ∧
    Content.ofSegments segments = content

theorem Shows.mono {limit more : Nat} {content : Content} {snapshot : Snapshot}
    (h : Shows limit content snapshot) (hle : limit ≤ more) : Shows more content snapshot := by
  obtain ⟨recorded, next, segments, hkept, hlimit, hcontent⟩ := h
  exact ⟨recorded, next, segments, hkept, Nat.le_trans hlimit hle, hcontent⟩

theorem Kept.shows {recorded next : UInt64} {segments : List Segment} {snapshot : Snapshot}
    (h : Kept recorded next segments snapshot) :
    Shows next.toNat (Content.ofSegments segments) snapshot :=
  ⟨recorded, next, segments, h, Nat.le_refl _, rfl⟩

namespace Memory

@[simp] theorem segment_adoptAll (memory : Memory) (dir : String) (segments : List Segment) :
    (memory.adoptAll dir segments).1.map Handle.segment = segments := by
  induction segments generalizing memory with
  | nil => rfl
  | cons segment rest ih => exact congrArg (segment :: ·) (ih _)

@[simp] theorem tables_adoptAll (memory : Memory) (dir : String) (segments : List Segment) :
    (memory.adoptAll dir segments).2.tables = memory.tables := by
  induction segments generalizing memory with
  | nil => rfl
  | cons segment rest ih => exact ih _

@[simp] theorem openings_adoptAll (memory : Memory) (dir : String) (segments : List Segment) :
    (memory.adoptAll dir segments).2.openings = memory.openings + segments.length := by
  induction segments generalizing memory with
  | nil => rfl
  | cons segment rest ih =>
    refine (ih _).trans ?_
    show memory.openings + 1 + rest.length = memory.openings + (rest.length + 1)
    omega

/-- Whether a handle got its serial number when some memory became another one. -/
def Numbers (before after : Memory) (handle : Handle) : Prop :=
  before.openings ≤ handle.serial ∧ handle.serial < after.openings

/-- Opened segments get serial numbers that none had before. -/
theorem numbers_adoptAll (memory : Memory) (dir : String) (segments : List Segment) :
    ∀ handle ∈ (memory.adoptAll dir segments).1,
      memory.Numbers (memory.adoptAll dir segments).2 handle := by
  induction segments generalizing memory with
  | nil => exact fun handle hmem => absurd hmem List.not_mem_nil
  | cons segment rest ih =>
    have hopenings : (memory.adoptAll dir (segment :: rest)).2.openings =
        memory.openings + (rest.length + 1) := openings_adoptAll _ _ _
    intro handle hmem
    rcases List.mem_cons.1 hmem with rfl | hmem
    · refine ⟨Nat.le_refl _, ?_⟩
      show memory.openings < _
      omega
    · obtain ⟨hle, hlt⟩ := ih _ handle hmem
      exact ⟨Nat.le_of_succ_le hle, hlt⟩

@[simp] theorem table_newTable (memory : Memory) (id : Nat) :
    memory.newTable.2.table id = memory.table id := by
  simp only [newTable, table, List.getD, List.getElem?_append]
  split
  · rfl
  · next hge =>
    rw [List.getElem?_eq_none (Nat.le_of_not_lt hge), List.getElem?_singleton]
    split <;> rfl

theorem isEmpty_newTable (memory : Memory) :
    (memory.newTable.2.table memory.newTable.1).isEmpty = true := by
  rw [table_newTable]
  simp only [newTable, table, List.getD, List.getElem?_eq_none (Nat.le_refl _)]
  rfl

end Memory

namespace Maintenance

/-- The directory that a workspace works on. -/
abbrev Workspace.snapshot (workspace : Workspace) : Snapshot := workspace.disk.snapshot

/-- The generation that is handed out next. -/
abbrev Workspace.next (workspace : Workspace) : UInt64 := workspace.engine.manager.next

/-- The directory of a workspace is committed to the segments of its engine, by a manifest that records
the given generation as the next one. -/
abbrev Workspace.Keeps (recorded : UInt64) (workspace : Workspace) : Prop :=
  Kept recorded workspace.next workspace.engine.live workspace.snapshot

/-- The workspace after its next generation was handed out. -/
def Workspace.allocated (workspace : Workspace) : Workspace :=
  { workspace with
    engine := { workspace.engine with manager := workspace.engine.manager.allocate.2 } }

/-! ## Building and committing -/

/-- The segment that entries become, if there are any. -/
def segmentOf? (generation : UInt64) (entries : List Entry) : Option Segment :=
  if entries.isEmpty then none else some (Segment.ofEntries generation entries)

variable {start : Workspace} {entries : List Entry} {generation : UInt64}

/-- What building leaves: a segment with the entries under the names of its generation, or, if there are
none, nothing. -/
structure Built (generation : UInt64) (entries : List Entry) (built : Option Segment)
    (s t : Snapshot) : Prop where
  within : Within (FileName.ofGeneration generation) s t
  holds : built.elim [] Segment.entries = entries
  made : built = segmentOf? generation entries
  nothing : built = none → Restored (FileName.ofGeneration generation) s t
  stored : ∀ segment, built = some segment → segment.generation = generation ∧ Stored t segment ∧
    ∀ half, s.holding (FileName.segment half generation) ≠ .folder ∧
      s.holding (Builder.temporary half generation) ≠ .folder ∧
      t.holding (Builder.temporary half generation) = .nothing

/-- **Building** hands out a generation, whatever comes of it. -/
theorem runs_build (entries : List Entry) (hu : start.snapshot.Unshared) :
    Runs (build entries).run start
      (fun result after => after = { start.allocated with disk := after.disk } ∧
        match result with
        | .ok built => Built start.next entries built start.snapshot after.snapshot
        | .error _ => Restored (FileName.ofGeneration start.next) start.snapshot after.snapshot ∧
            Manager.Hindered start.snapshot start.next entries)
      (Within (FileName.ofGeneration start.next) start.snapshot) := by
  refine Runs.of_run_eq
    (onDisk (Manager.build start.engine.manager.sync start.next entries)).run start.allocated rfl rfl ?_
  refine Runs.onDisk ((Manager.runs_build start.engine.manager.sync start.next entries hu).mono ?_
    fun _ ht => ht)
  rintro (error | _ | segment) disk hpost hcrash
  · exact ⟨rfl, hpost⟩
  · obtain ⟨rfl, hrestored⟩ := hpost
    exact ⟨rfl, hcrash, rfl, rfl, fun _ => hrestored, by simp⟩
  · obtain ⟨hentries, hsegment, hlength, hstored, hfree⟩ := hpost
    refine ⟨rfl, hcrash, ?_, ?_, by simp, ?_⟩
    · rw [hsegment]
      exact Segment.entries_ofEntries hlength
    · rw [segmentOf?, if_neg (by simpa using hentries), hsegment]
    · rintro other ⟨rfl⟩
      exact ⟨by rw [hsegment]; rfl, hstored, hfree⟩

/-- But for the files of the segment itself, a file may be lost at most. -/
theorem Built.rest {built : Option Segment} {s t : Snapshot} (hbuilt : Built generation entries built s t)
    {name : String} (hname : name ∉ filesOf built.toList) :
    t.holding name = s.holding name ∨ ∃ bytes, s.holding name = .file bytes := by
  cases hcase : built with
  | none => exact ((hbuilt.nothing hcase).same name).imp_right And.right
  | some segment =>
    obtain ⟨hgeneration, -, hfree⟩ := hbuilt.stored segment hcase
    by_cases hmem : name ∈ FileName.ofGeneration generation
    · obtain ⟨half, rfl | rfl⟩ := FileName.mem_ofGeneration.1 hmem
      · exact absurd (mem_filesOf.2 ⟨segment, by simp [hcase], half, by rw [hgeneration]⟩) hname
      · exact Holding.eq_or_file (hfree half).2.1 (hfree half).2.2
    · exact .inl (hbuilt.within.same name hmem)

/-- A segment that was built is taken away again: nothing stays behind. -/
theorem Built.removed {built : Option Segment} {s t u v : Snapshot}
    (hbuilt : Built generation entries built s t)
    (hcommit : Restored [FileName.temporary FileName.manifest] t u) (hu : v.Unshared)
    (hremove : ∀ name, v.holding name =
      if built.isSome ∧ name ∈ FileName.halves generation then (u.holding name).withoutFile
      else u.holding name) :
    Restored (FileName.temporary FileName.manifest :: FileName.ofGeneration generation) s v := by
  -- Away from the names of the segment only the new manifest may have been lost.
  have hother : ∀ name, v.holding name = u.holding name →
      (name ∉ FileName.ofGeneration generation ∨ built = none) →
      v.holding name = s.holding name ∨
        (name ∈ FileName.temporary FileName.manifest :: FileName.ofGeneration generation ∧
          ∃ bytes, s.holding name = .file bytes) := by
    intro name hname hplace
    have hsame : t.holding name = s.holding name ∨
        (name ∈ FileName.ofGeneration generation ∧ ∃ bytes, s.holding name = .file bytes) := by
      rcases hplace with hout | hnone
      · exact .inl (hbuilt.within.same name hout)
      · exact (hbuilt.nothing hnone).same name
    rcases hsame with hsame | ⟨hmem, hfile⟩
    · rw [hname, ← hsame]
      exact (hcommit.same name).imp_right fun ⟨hmem, hfile⟩ =>
        ⟨List.mem_cons.2 (.inl (List.mem_singleton.1 hmem)), hfile⟩
    · exact .inr ⟨List.mem_cons_of_mem _ hmem, hfile⟩
  refine ⟨hu, fun name => ?_⟩
  cases hcase : built with
  | none =>
    refine hother name ?_ (.inr hcase)
    rw [hremove, if_neg (by simp [hcase])]
  | some segment =>
    obtain ⟨hgeneration, hstored, hfree⟩ := hbuilt.stored segment hcase
    by_cases hmem : name ∈ FileName.ofGeneration generation
    · have hlost : ∀ {holding : Holding}, holding ≠ .folder → v.holding name = .nothing →
          holding = s.holding name → v.holding name = s.holding name ∨
            (name ∈ FileName.temporary FileName.manifest :: FileName.ofGeneration generation ∧
              ∃ bytes, s.holding name = .file bytes) := by
        rintro holding hfolder hnothing rfl
        cases hholding : s.holding name with
        | nothing => exact .inl hnothing
        | folder => exact absurd hholding hfolder
        | file bytes => exact .inr ⟨List.mem_cons_of_mem _ hmem, bytes, rfl⟩
      have hmanifest : name ≠ FileName.temporary FileName.manifest := by
        rintro rfl
        exact FileName.temporary_manifest_not_mem_ofGeneration _ hmem
      have hkept : u.holding name = t.holding name := hcommit.within.same name (by simpa using hmanifest)
      obtain ⟨half, rfl | rfl⟩ := FileName.mem_ofGeneration.1 hmem
      · refine hlost (hfree half).1 ?_ rfl
        obtain ⟨data, index, hdata, hindex, -⟩ := hstored.files
        rw [hremove, if_pos ⟨by simp [hcase], FileName.mem_halves.2 ⟨half, rfl⟩⟩, hkept, ← hgeneration]
        cases half
        · rw [hdata]
          rfl
        · rw [hindex]
          rfl
      · refine hlost (hfree half).2.1 ?_ rfl
        have hnot : FileName.temporary (FileName.segment half generation) ∉
            FileName.halves generation := by
          simp [FileName.halves]
        rw [hremove, if_neg fun h => hnot h.2, hkept]
        exact (hfree half).2.2
    · refine hother name ?_ (.inl hmem)
      have hnot : name ∉ FileName.halves generation := by
        intro hname
        obtain ⟨half, hname⟩ := FileName.mem_halves.1 hname
        exact hmem (FileName.mem_ofGeneration.2 ⟨half, .inl hname⟩)
      rw [hremove, if_neg fun h => hnot h.2]

theorem run_get_bind {α : Type} (f : Workspace → MaintenanceM α) :
    (get >>= f : MaintenanceM α).run.run start = (f start).run.run start := rfl

theorem run_commit (segments : List Segment) (built : Option Segment) :
    (commit segments built).run.run start =
      (onDisk (Disk.orElse (start.engine.manager.commit segments) (built.forM fun segment =>
        Segment.remove segment.generation))).run.run start :=
  run_get_bind fun workspace => onDisk (Disk.orElse (workspace.engine.manager.commit segments)
    (built.forM fun segment => Segment.remove segment.generation))

/-- **Committing** installs a manifest, or takes what was built for it away again. -/
theorem runs_commit {s : Snapshot} {built : Option Segment} (segments : List Segment)
    (hbuilt : Built generation entries built s start.snapshot) :
    Runs (commit segments built).run start
      (fun result after => after = { start with disk := after.disk } ∧
        match result with
        | .ok _ => Commits generation built
            (Manifest.current start.next (segments.reverse.map Segment.info)) s after.snapshot
        | .error _ => Restored (FileName.temporary FileName.manifest ::
            FileName.ofGeneration generation) s after.snapshot ∧
            (Manifest.current start.next (segments.reverse.map Segment.info)).Hindered s)
      (fun t => Within (FileName.temporary FileName.manifest :: FileName.ofGeneration generation) s t ∨
        Commits generation built
          (Manifest.current start.next (segments.reverse.map Segment.info)) s t) := by
  have hu := hbuilt.within.unshared
  have hspared : ∀ {t : Snapshot}, Within [FileName.temporary FileName.manifest] start.snapshot t →
      Within (FileName.temporary FileName.manifest :: FileName.ofGeneration generation) s t := fun ht =>
    (hbuilt.within.mono (List.subset_cons_self _ _)).trans (ht.mono (by simp))
  have hcommits : ∀ {t : Snapshot}, Manifest.Installed
      (Manifest.current start.next (segments.reverse.map Segment.info)) start.snapshot t →
      Commits generation built
        (Manifest.current start.next (segments.reverse.map Segment.info)) s t := by
    intro t ht
    refine ⟨(hbuilt.within.mono ?_).trans (ht.within.mono (by simp)), ht.written, fun segment hmem => ?_,
      fun name hmanifest hname => ?_⟩
    · exact fun name hname => List.mem_cons_of_mem _ (List.mem_cons_of_mem _ hname)
    · obtain ⟨hgeneration, hstored, -⟩ := hbuilt.stored segment hmem
      refine ⟨hgeneration, hstored.within ht.within fun half => ?_⟩
      simp [FileName.segment_ne_manifest, (FileName.temporary_manifest_ne_segment _ _).symm]
    · rcases hbuilt.rest hname with hsame | hfile
      · rw [← hsame]
        exact ht.rest hmanifest
      · exact .inr hfile
  refine Runs.of_run_eq (onDisk (Disk.orElse (start.engine.manager.commit segments)
    (built.forM fun segment => Segment.remove segment.generation))).run start rfl
    (run_commit segments built) ?_
  refine Runs.onDisk (Runs.orElse ((Manifest.runs_store _ hu).monoCrash ?_) ?_ ?_)
  · rintro t (ht | ht)
    · exact .inl (hspared ht)
    · exact .inr (hcommits ht)
  · rintro ⟨⟩ disk hinstalled
    exact ⟨rfl, hcommits hinstalled⟩
  · rintro error disk ⟨hrestored, hhindered⟩
    -- None of the names of the generation is one of the manifest's.
    have hhindered : (Manifest.current start.next (segments.reverse.map Segment.info)).Hindered s := by
      rcases hhindered with hencode | hfolder | hfolder
      · exact .inl hencode
      · refine .inr (.inl ?_)
        rw [← hbuilt.within.same _ (FileName.temporary_manifest_not_mem_ofGeneration _)]
        exact hfolder
      · refine .inr (.inr ?_)
        rw [← hbuilt.within.same _ (FileName.manifest_not_mem_ofGeneration _)]
        exact hfolder
    cases hcase : built with
    | none =>
      refine Runs.pure _ ⟨rfl, hbuilt.removed hrestored hrestored.unshared fun name => ?_, hhindered⟩
        (.inl (hspared hrestored.within))
      simp [hcase]
    | some segment =>
      obtain ⟨hgeneration, -⟩ := hbuilt.stored segment hcase
      refine ((Segment.runs_remove segment.generation hrestored.unshared).withCrash).mono ?_ ?_
      · rintro ⟨⟩ done ⟨hholding, hwithin⟩ -
        refine ⟨rfl, hbuilt.removed hrestored hwithin.unshared fun name => ?_, hhindered⟩
        rw [hholding, hgeneration]
        simp [hcase, FileName.halves]
      · intro t ht
        refine .inl ((hspared hrestored.within).trans (ht.mono ?_))
        rw [hgeneration]
        simp [FileName.ofGeneration]

/-- The workspace once the next generation is handed out and what was built, if anything, is taken over
before the given segments, while the given tables wait. -/
def Workspace.taking (workspace : Workspace) (built : Option Segment) (queue : List Nat)
    (older : List Handle) : Workspace :=
  let adopted := workspace.memory.adoptAll workspace.engine.config.dataDir built.toList
  { workspace with
    engine := { workspace.allocated.engine with queue, segments := adopted.1 ++ older }
    memory := adopted.2 }

theorem live_taking (workspace : Workspace) (built : Option Segment) (queue : List Nat)
    (older : List Handle) : (workspace.taking built queue older).engine.live =
      built.toList ++ older.map Handle.segment :=
  List.map_append.trans (congrArg (· ++ older.map Handle.segment) (Memory.segment_adoptAll _ _ _))

/-- What keeps entries from being committed as a segment of the next generation, and with it the given
list. -/
def Workspace.Hindered (workspace : Workspace) (entries : List Entry) (listed : List Segment) : Prop :=
  Manager.Hindered workspace.snapshot workspace.next entries ∨
    (Manifest.current (workspace.next + 1) (listed.reverse.map Segment.info)).Hindered workspace.snapshot

/-- A step that was to commit entries has failed: it has handed out a generation, and files are lost at
most, under the names it wanted. -/
structure Fails (entries : List Entry) (listed : List Segment) (start after : Workspace) : Prop where
  state : after = { start.allocated with disk := after.disk }
  restored : Restored (FileName.temporary FileName.manifest :: FileName.ofGeneration start.next)
    start.snapshot after.snapshot
  hindered : start.Hindered entries listed

/-! ## What a step of maintenance keeps -/

/-- The oldest tables of an engine have been written out and those of `rest` still wait, after `handed`
generations were handed out. -/
structure Drained (written rest : List Nat) (handed : Nat) (start after : Workspace) : Prop where
  config : after.engine.config = start.engine.config
  closed : after.engine.closed = start.engine.closed
  active : after.engine.active = start.engine.active
  queue : after.engine.queue = rest
  tables : after.memory.tables = start.memory.tables
  next : after.next = start.next + .ofNat handed
  unshared : after.snapshot.Unshared
  ascending : ∀ segment ∈ after.engine.live, Ascending segment.entries
  content : Content.ofSegments after.engine.live =
    Content.overlay start.memory written.reverse (Content.ofSegments start.engine.live)
  keeps : ∀ {recorded}, start.Keeps recorded → start.next.toNat + handed < UInt64.size →
    ∃ recorded', recorded ≤ recorded' ∧ after.Keeps recorded'
  fresh : start.next.toNat + handed < UInt64.size → ∀ segment ∈ after.engine.live,
    segment ∈ start.engine.live ∨ start.next ≤ segment.generation
  gains : Gains (FileName.manifest :: filesOf after.engine.live) start.snapshot after.snapshot
  /-- Files of generations before are as they were, if they are not of segments that were replaced. -/
  spared : start.next.toNat + handed < UInt64.size → ∀ generation < start.next,
    ((∃ segment ∈ start.engine.live, segment.generation = generation) →
      ∃ segment ∈ after.engine.live, segment.generation = generation) →
    ∀ half, after.snapshot.holding (FileName.segment half generation) =
      start.snapshot.holding (FileName.segment half generation)
  openings : start.memory.openings ≤ after.memory.openings
  adopted : ∀ handle ∈ after.engine.segments,
    handle ∈ start.engine.segments ∨ start.memory.Numbers after.memory handle

/-- A crash finds the directory committed to the segments of the engine with some of its oldest tables
over them: as many as `reached` allows. -/
structure Interrupted (reached : List Nat → Prop) (handed : Nat) (start : Workspace)
    (snapshot : Snapshot) : Prop where
  unshared : snapshot.Unshared
  shows : ∀ {recorded}, start.Keeps recorded → start.next.toNat + handed < UInt64.size →
    ∃ written, reached written ∧
    Shows (start.next.toNat + handed)
      (Content.overlay start.memory written.reverse (Content.ofSegments start.engine.live)) snapshot

theorem Memory.table_congr {memory memory' : Memory} (h : memory'.tables = memory.tables) (id : Nat) :
    memory'.table id = memory.table id := by
  rw [Memory.table, Memory.table, h]

theorem Drained.refl (hu : start.snapshot.Unshared)
    (hasc : ∀ segment ∈ start.engine.live, Ascending segment.entries) :
    Drained [] start.engine.queue 0 start start where
  config := rfl
  closed := rfl
  active := rfl
  queue := rfl
  tables := rfl
  next := by simp
  unshared := hu
  ascending := hasc
  content := rfl
  keeps h _ := ⟨_, UInt64.le_refl _, h⟩
  fresh _ _ hmem := .inl hmem
  gains := .refl _ _
  spared _ _ _ _ _ := rfl
  openings := Nat.le_refl _
  adopted _ hmem := .inl hmem

/-- Writing more tables out, while the segments stay. -/
theorem Drained.trans {written rest written' rest' : List Nat} {handed handed' : Nat}
    {middle after : Workspace} (h : Drained written rest handed start middle)
    (h' : Drained written' rest' handed' middle after)
    (hlive : middle.engine.live ⊆ after.engine.live) :
    Drained (written ++ written') rest' (handed + handed') start after where
  config := h'.config.trans h.config
  closed := h'.closed.trans h.closed
  active := h'.active.trans h.active
  queue := h'.queue
  tables := h'.tables.trans h.tables
  next := by
    rw [h'.next, h.next, UInt64.add_assoc, ← UInt64.ofNat_add]
  unshared := h'.unshared
  ascending := h'.ascending
  content := by
    rw [h'.content, h.content, List.reverse_append, Content.overlay_append]
    exact Content.overlay_congr (fun id _ => Memory.table_congr h.tables id) _
  keeps hkeeps hroom := by
    have hfirst : start.next.toNat + handed < UInt64.size := by omega
    obtain ⟨recorded, hle, hmiddle⟩ := h.keeps hkeeps hfirst
    have hsecond : middle.next.toNat + handed' < UInt64.size := by
      rw [h.next, toNat_add_ofNat hfirst]
      omega
    obtain ⟨recorded', hle', hafter⟩ := h'.keeps hmiddle hsecond
    exact ⟨recorded', UInt64.le_trans hle hle', hafter⟩
  fresh hroom segment hmem := by
    have hfirst : start.next.toNat + handed < UInt64.size := by omega
    have hnext : middle.next.toNat = start.next.toNat + handed := by
      rw [h.next, toNat_add_ofNat hfirst]
    rcases h'.fresh (by omega) segment hmem with hmiddle | hnew
    · exact h.fresh hfirst segment hmiddle
    · right
      rw [UInt64.le_iff_toNat_le] at hnew ⊢
      omega
  gains := (h.gains.mono (List.cons_subset_cons _ (filesOf_subset hlive))).trans h'.gains
  spared hroom generation hold hlisted half := by
    have hfirst : start.next.toNat + handed < UInt64.size := by omega
    have hnext : middle.next.toNat = start.next.toNat + handed := by
      rw [h.next, toNat_add_ofNat hfirst]
    have hold' : generation < middle.next := by
      rw [UInt64.lt_iff_toNat_lt] at hold ⊢
      omega
    -- Segments of earlier generations were listed before, if they are listed at all.
    have hmiddle : (∃ segment ∈ middle.engine.live, segment.generation = generation) →
        ∃ segment ∈ start.engine.live, segment.generation = generation := by
      rintro ⟨segment, hmem, rfl⟩
      refine ⟨segment, (h.fresh hfirst segment hmem).resolve_right fun hnew => ?_, rfl⟩
      exact UInt64.not_le.2 hold hnew
    have hafter : (∃ segment ∈ after.engine.live, segment.generation = generation) →
        ∃ segment ∈ middle.engine.live, segment.generation = generation := by
      rintro ⟨segment, hmem, rfl⟩
      refine ⟨segment, (h'.fresh (by omega) segment hmem).resolve_right fun hnew => ?_, rfl⟩
      exact UInt64.not_le.2 hold' hnew
    exact (h'.spared (by omega) generation hold' (fun hin => hlisted (hmiddle hin)) half).trans
      (h.spared hfirst generation hold (fun hin => hafter (hlisted hin)) half)
  openings := Nat.le_trans h.openings h'.openings
  adopted handle hmem := by
    rcases h'.adopted handle hmem with hmiddle | ⟨hle, hlt⟩
    · rcases h.adopted handle hmiddle with hold | ⟨hle, hlt⟩
      · exact .inl hold
      · exact .inr ⟨hle, Nat.lt_of_lt_of_le hlt h'.openings⟩
    · exact .inr ⟨Nat.le_trans h.openings hle, hlt⟩

theorem Drained.shows {written rest : List Nat} {handed : Nat} {after : Workspace} {snapshot : Snapshot}
    {recorded : UInt64} (h : Drained written rest handed start after)
    (hroom : start.next.toNat + handed < UInt64.size)
    (hkept : Kept recorded after.next after.engine.live snapshot) :
    Shows (start.next.toNat + handed)
      (Content.overlay start.memory written.reverse (Content.ofSegments start.engine.live)) snapshot := by
  have hshows := hkept.shows
  rwa [h.next, toNat_add_ofNat hroom, h.content] at hshows

/-- A change of the directory that leaves it committed to the segments. -/
theorem Drained.withDisk {written rest : List Nat} {handed : Nat} {after : Workspace} {disk : Disk}
    (h : Drained written rest handed start after) (hu : disk.snapshot.Unshared)
    (hgains : Gains [] after.snapshot disk.snapshot)
    (hkept : ∀ {recorded}, start.Keeps recorded → start.next.toNat + handed < UInt64.size →
      ∃ recorded', recorded ≤ recorded' ∧ Kept recorded' after.next after.engine.live disk.snapshot)
    (hspared : ∀ generation < start.next,
      ((∃ segment ∈ start.engine.live, segment.generation = generation) →
        ∃ segment ∈ after.engine.live, segment.generation = generation) →
      ∀ half, disk.snapshot.holding (FileName.segment half generation) =
        after.snapshot.holding (FileName.segment half generation)) :
    Drained written rest handed start { after with disk } where
  config := h.config
  closed := h.closed
  active := h.active
  queue := h.queue
  tables := h.tables
  next := h.next
  unshared := hu
  ascending := h.ascending
  content := h.content
  keeps := hkept
  fresh := h.fresh
  gains := h.gains.trans (hgains.mono (List.nil_subset _))
  spared hroom generation hold hlisted half :=
    (hspared generation hold hlisted half).trans (h.spared hroom generation hold hlisted half)
  openings := h.openings
  adopted := h.adopted

/-- A crash after some tables were written out. -/
theorem Drained.interrupted {written rest : List Nat} {handed handed' : Nat}
    {middle : Workspace} {snapshot : Snapshot} {reached reached' : List Nat → Prop}
    (h : Drained written rest handed start middle)
    (h' : Interrupted reached' handed' middle snapshot)
    (hreached : ∀ more, reached' more → reached (written ++ more)) :
    Interrupted reached (handed + handed') start snapshot where
  unshared := h'.unshared
  shows hkeeps hroom := by
    have hfirst : start.next.toNat + handed < UInt64.size := by omega
    have hnext : middle.next.toNat = start.next.toNat + handed := by
      rw [h.next, toNat_add_ofNat hfirst]
    obtain ⟨recorded, -, hmiddle⟩ := h.keeps hkeeps hfirst
    obtain ⟨more, hmore, hshows⟩ := h'.shows hmiddle (by omega)
    refine ⟨written ++ more, hreached more hmore, ?_⟩
    have hcontent : Content.overlay middle.memory more.reverse (Content.ofSegments middle.engine.live) =
        Content.overlay start.memory (written ++ more).reverse
          (Content.ofSegments start.engine.live) := by
      rw [h.content, List.reverse_append, Content.overlay_append]
      exact Content.overlay_congr (fun id _ => Memory.table_congr h.tables id) _
    rw [hcontent] at hshows
    exact hshows.mono (by omega)

theorem Interrupted.mono {reached reached' : List Nat → Prop} {handed handed' : Nat}
    {snapshot : Snapshot} (h : Interrupted reached handed start snapshot)
    (hreached : ∀ written, reached written → reached' written) (hle : handed ≤ handed') :
    Interrupted reached' handed' start snapshot where
  unshared := h.unshared
  shows hkeeps hroom := by
    obtain ⟨written, hwritten, hshows⟩ := h.shows hkeeps (by omega)
    exact ⟨written, hreached written hwritten, hshows.mono (by omega)⟩

theorem Interrupted.refl {reached : List Nat → Prop} (hreached : reached []) (handed : Nat)
    (hu : start.snapshot.Unshared) : Interrupted reached handed start start.snapshot where
  unshared := hu
  shows hkeeps _ := ⟨[], hreached, hkeeps.shows.mono (Nat.le_add_right _ _)⟩

/-- While a generation is used that nothing is committed to yet, a crash finds what was committed. -/
theorem Interrupted.spared {reached : List Nat → Prop} {snapshot : Snapshot} (hreached : reached [])
    (hwithin : Within (FileName.temporary FileName.manifest :: FileName.ofGeneration start.next)
      start.snapshot snapshot) : Interrupted reached 1 start snapshot where
  unshared := hwithin.unshared
  shows hkeeps hroom := by
    refine ⟨[], hreached, ?_⟩
    have hshows := (hkeeps.spared hroom hwithin).shows
    rwa [Kept.toNat_succ hroom] at hshows

/-- A step that fails leaves the directory committed as it was. -/
theorem Drained.of_restored {after : Workspace} {names : List String}
    (hafter : after = { start.allocated with disk := after.disk })
    (hasc : ∀ segment ∈ start.engine.live, Ascending segment.entries)
    (hrestored : Restored names start.snapshot after.snapshot)
    (hnames : names ⊆ FileName.temporary FileName.manifest :: FileName.ofGeneration start.next) :
    Drained [] start.engine.queue 1 start after := by
  have hwithin := hrestored.within.mono hnames
  have hu := hwithin.unshared
  rw [hafter]
  exact {
    config := rfl
    closed := rfl
    active := rfl
    queue := rfl
    tables := rfl
    next := rfl
    unshared := hu
    ascending := hasc
    content := rfl
    keeps := fun hkeeps hroom => ⟨_, UInt64.le_refl _, hkeeps.spared hroom hwithin⟩
    fresh := fun _ _ hmem => .inl hmem
    gains := hrestored.gains.mono (List.nil_subset _)
    spared := fun _ generation hold _ half => hwithin.same _ (by
      simp [(FileName.temporary_manifest_ne_segment _ _).symm, FileName.segment_mem_ofGeneration,
        UInt64.ne_of_lt hold])
    openings := Nat.le_refl _
    adopted := fun _ hmem => .inl hmem }

section Commits

variable {written rest : List Nat} {built : Option Segment} {handles : List Handle} {t : Snapshot}

/-- Once the next generation is committed to, a crash finds what it holds. -/
theorem Interrupted.of_commits {reached : List Nat → Prop}
    (hcommits : Commits start.next built (Manifest.current (start.next + 1)
      ((handles.map Handle.segment).reverse.map Segment.info)) start.snapshot t)
    (hlisted : (handles.map Handle.segment).Sublist (built.toList ++ start.engine.live))
    (hcontent : Content.ofSegments (handles.map Handle.segment) =
      Content.overlay start.memory written.reverse (Content.ofSegments start.engine.live))
    (hreached : reached written) : Interrupted reached 1 start t where
  unshared := hcommits.within.unshared
  shows hkeeps hroom := by
    refine ⟨written, hreached, ?_⟩
    have hshows := (hkeeps.of_commits hroom hcommits hlisted).shows
    rwa [Kept.toNat_succ hroom, hcontent] at hshows

/-- An engine that takes over what it has committed to. -/
theorem Drained.of_commits {after : Workspace} {dir : String}
    (hengine : after.engine = { start.allocated.engine with queue := rest, segments := handles })
    (hmemory : after.memory = (start.memory.adoptAll dir built.toList).2)
    (hasc : ∀ segment ∈ start.engine.live, Ascending segment.entries)
    (hcommits : Commits start.next built (Manifest.current (start.next + 1)
      ((handles.map Handle.segment).reverse.map Segment.info)) start.snapshot after.snapshot)
    (hhandles : handles.Sublist
      ((start.memory.adoptAll dir built.toList).1 ++ start.engine.segments))
    (hbuilt : built.toList ⊆ handles.map Handle.segment)
    (hcontent : Content.ofSegments (handles.map Handle.segment) =
      Content.overlay start.memory written.reverse (Content.ofSegments start.engine.live)) :
    Drained written rest 1 start after := by
  have hlive : after.engine.live = handles.map Handle.segment := by
    rw [hengine]
    rfl
  have hlisted : (handles.map Handle.segment).Sublist (built.toList ++ start.engine.live) := by
    have hlisted := hhandles.map Handle.segment
    rwa [List.map_append, Memory.segment_adoptAll] at hlisted
  exact {
    config := by rw [hengine]; rfl
    closed := by rw [hengine]; rfl
    active := by rw [hengine]; rfl
    queue := by rw [hengine]
    tables := by rw [hmemory, Memory.tables_adoptAll]
    next := by rw [Workspace.next, hengine]; rfl
    unshared := hcommits.within.unshared
    ascending := by
      intro segment hmem
      rcases List.mem_append.1 (hlisted.subset (hlive ▸ hmem)) with hnew | hold
      · exact (hcommits.stored segment (Option.mem_toList.1 hnew)).2.ascending
      · exact hasc segment hold
    content := hlive ▸ hcontent
    keeps := by
      intro recorded hkeeps hroom
      have hkept := hkeeps.of_commits hroom hcommits hlisted
      have hnext : after.next = start.next + 1 := by
        rw [Workspace.next, hengine]
        rfl
      refine ⟨start.next + 1, UInt64.le_trans hkeeps.recorded_le (Kept.le_succ hroom), ?_⟩
      rw [Workspace.Keeps, hnext, hlive]
      exact hkept
    fresh := by
      intro _ segment hmem
      rcases List.mem_append.1 (hlisted.subset (hlive ▸ hmem)) with hnew | hold
      · exact .inr (UInt64.le_of_eq (hcommits.stored segment (Option.mem_toList.1 hnew)).1.symm)
      · exact .inl hold
    gains := by
      rw [hlive]
      exact hcommits.gains.mono (List.cons_subset_cons _ (filesOf_subset hbuilt))
    spared := fun _ generation hold _ half => hcommits.within.same _ (by
      simp [FileName.segment_ne_manifest, (FileName.temporary_manifest_ne_segment _ _).symm,
        FileName.segment_mem_ofGeneration, UInt64.ne_of_lt hold])
    openings := by
      rw [hmemory, Memory.openings_adoptAll]
      exact Nat.le_add_right _ _
    adopted := by
      intro handle hmem
      rw [hengine] at hmem
      rw [hmemory]
      exact (List.mem_append.1 (hhandles.subset hmem)).symm.imp_right
        (Memory.numbers_adoptAll _ _ _ handle) }

end Commits

/-! ## Writing one table out -/

/-- Writes one table out, after which the given others wait. -/
def writeTable (table : Nat) (rest : List Nat) : MaintenanceM Unit := do
  let { engine, memory, .. } ← get
  match ← build (memory.table table).entries with
  | none => change fun engine => { engine with queue := rest }
  | some segment =>
    commit (segment :: engine.live) (some segment)
    let handle ← adopt segment
    change fun engine => { engine with queue := rest, segments := handle :: engine.segments }

theorem flushTables_cons (table : Nat) (rest : List Nat) :
    flushTables (table :: rest) = writeTable table rest >>= fun _ => flushTables rest := by
  simp only [flushTables, writeTable, bind_assoc]
  congr 1
  funext workspace
  congr 1
  funext built
  cases built <;> simp only [bind_assoc]

/-- **Writing a table out**: it becomes a segment of the next generation, which is committed and taken over,
unless nothing was written into it. -/
theorem runs_writeTable_exact (table : Nat) (rest : List Nat) {built : Option Segment}
    (hmade : built = segmentOf? start.next (start.memory.table table).entries)
    (hu : start.snapshot.Unshared) :
    Runs (writeTable table rest).run start
      (fun result after => match result with
        | .ok _ => after = { start.taking built rest start.engine.segments with disk := after.disk } ∧
            (built = none → (start.memory.table table).isEmpty = true ∧
              Restored (FileName.ofGeneration start.next) start.snapshot after.snapshot) ∧
            ∀ segment, built = some segment → segment.entries = (start.memory.table table).entries ∧
              Commits start.next built (Manifest.current (start.next + 1)
                ((segment :: start.engine.live).reverse.map Segment.info)) start.snapshot after.snapshot
        | .error _ => Fails (start.memory.table table).entries (built.toList ++ start.engine.live)
            start after)
      (fun t => Within (FileName.temporary FileName.manifest :: FileName.ofGeneration start.next)
          start.snapshot t ∨
        ∃ segment, built = some segment ∧ segment.entries = (start.memory.table table).entries ∧
          Commits start.next built (Manifest.current (start.next + 1)
            ((segment :: start.engine.live).reverse.map Segment.info)) start.snapshot t) := by
  have hspared : ∀ {t : Snapshot}, Within (FileName.ofGeneration start.next) start.snapshot t →
      Within (FileName.temporary FileName.manifest :: FileName.ofGeneration start.next)
        start.snapshot t := fun ht => ht.mono (List.subset_cons_self _ _)
  refine Runs.of_run_eq (build (start.memory.table table).entries >>= fun built => match built with
      | none => change fun engine => { engine with queue := rest }
      | some segment => do
        commit (segment :: start.engine.live) (some segment)
        let handle ← adopt segment
        change fun engine => { engine with queue := rest, segments := handle :: engine.segments } :
      MaintenanceM Unit).run start rfl (run_get_bind _) ?_
  refine Runs.andThen ((runs_build (start.memory.table table).entries hu).withCrash.monoCrash
    fun t ht => .inl (hspared ht)) ?_ ?_
  · rintro other middle - ⟨⟨hmiddle, hbuilt⟩, hcrash⟩
    obtain rfl : built = other := hmade.trans hbuilt.made.symm
    cases built with
    | none =>
      refine Runs.of_disk_eq rfl rfl ⟨?_, fun _ => ⟨?_, hbuilt.nothing rfl⟩, by simp⟩ (.inl (hspared hcrash))
      · rw [hmiddle]
        rfl
      · exact List.isEmpty_iff.2 hbuilt.holds.symm
    | some segment =>
      have hnext : middle.next = start.next + 1 := by
        rw [hmiddle]
        rfl
      have hcommit := runs_commit (segment :: start.engine.live) hbuilt
      rw [hnext] at hcommit
      refine Runs.andThen (hcommit.withCrash.monoCrash ?_) ?_ ?_
      · exact fun t ht => ht.imp_right fun hcommits => ⟨segment, rfl, hbuilt.holds, hcommits⟩
      · rintro ⟨⟩ last - ⟨⟨hlast, hcommits⟩, -⟩
        refine Runs.of_disk_eq rfl rfl ⟨?_, by simp, ?_⟩ (.inr ⟨segment, rfl, hbuilt.holds, hcommits⟩)
        · rw [hlast, hmiddle]
          rfl
        · rintro other ⟨⟩
          exact ⟨hbuilt.holds, hcommits⟩
      · rintro error last ⟨⟨hlast, hrestored, hhindered⟩, -⟩
        rw [hmiddle] at hlast
        exact ⟨hlast, hrestored, .inr hhindered⟩
  · rintro error middle ⟨⟨hmiddle, hrestored, hhindered⟩, -⟩
    exact ⟨hmiddle, hrestored.mono (List.subset_cons_self _ _), .inl hhindered⟩

/-- A table that nothing was written into hides nothing. -/
theorem Drained.skip {table : Nat} {rest : List Nat} {handed : Nat} {after : Workspace}
    (h : Drained [] (table :: rest) handed start after) (hempty : (start.memory.table table).isEmpty = true) :
    Drained [table] rest handed start { after with engine := { after.engine with queue := rest } } where
  config := h.config
  closed := h.closed
  active := h.active
  queue := rfl
  tables := h.tables
  next := h.next
  unshared := h.unshared
  ascending := h.ascending
  content := by
    rw [List.reverse_singleton, Content.overlay_singleton_of_isEmpty hempty]
    exact h.content
  keeps := h.keeps
  fresh := h.fresh
  gains := h.gains
  spared := h.spared
  openings := h.openings
  adopted := h.adopted

/-- A table that was written into becomes the newest segment. -/
theorem Drained.of_table {table : Nat} {rest : List Nat} {segment : Segment} {after : Workspace}
    (hafter : after = { start.taking (some segment) rest start.engine.segments with disk := after.disk })
    (hasc : ∀ segment ∈ start.engine.live, Ascending segment.entries)
    (hentries : segment.entries = (start.memory.table table).entries)
    (hcommits : Commits start.next (some segment) (Manifest.current (start.next + 1)
      ((segment :: start.engine.live).reverse.map Segment.info)) start.snapshot after.snapshot) :
    Drained [table] rest 1 start after := by
  let handles : List Handle :=
    (start.memory.adopt start.engine.config.dataDir segment).1 :: start.engine.segments
  have hcontent : Content.ofSegments (handles.map Handle.segment) =
      Content.overlay start.memory [table].reverse (Content.ofSegments start.engine.live) :=
    Content.ofSegments_cons_of_table hentries _
  have hnew : (some segment).toList ⊆ handles.map Handle.segment :=
    List.cons_subset_cons _ (List.nil_subset _)
  exact .of_commits (by rw [hafter]; rfl) (by rw [hafter]; rfl) hasc hcommits
    (List.Sublist.refl handles) hnew hcontent

/-- Once the segment of a table is committed, a crash finds the table written out. -/
theorem Interrupted.of_table {table : Nat} {segment : Segment} {t : Snapshot}
    (hentries : segment.entries = (start.memory.table table).entries)
    (hcommits : Commits start.next (some segment) (Manifest.current (start.next + 1)
      ((segment :: start.engine.live).reverse.map Segment.info)) start.snapshot t) :
    Interrupted (fun written => written = [] ∨ written = [table]) 1 start t := by
  let handles : List Handle :=
    (start.memory.adopt start.engine.config.dataDir segment).1 :: start.engine.segments
  have hcontent : Content.ofSegments (handles.map Handle.segment) =
      Content.overlay start.memory [table].reverse (Content.ofSegments start.engine.live) :=
    Content.ofSegments_cons_of_table hentries _
  have hlisted : (handles.map Handle.segment).Sublist ((some segment).toList ++ start.engine.live) :=
    List.Sublist.refl _
  exact .of_commits hcommits hlisted hcontent (.inr rfl)

/-- **Writing the oldest table out** commits a segment with its entries, or changes nothing that counts. -/
theorem runs_writeTable {table : Nat} {rest : List Nat} (hqueue : start.engine.queue = table :: rest)
    (hu : start.snapshot.Unshared) (hasc : ∀ segment ∈ start.engine.live, Ascending segment.entries) :
    Runs (writeTable table rest).run start
      (fun result after => start.engine.segments <:+ after.engine.segments ∧
        match result with
        | .ok _ => Drained [table] rest 1 start after
        | .error _ => Drained [] (table :: rest) 1 start after)
      (Interrupted (fun written => written = [] ∨ written = [table]) 1 start) := by
  refine (runs_writeTable_exact table rest rfl hu).mono ?_ ?_
  · rintro (error | ⟨⟩) after hpost -
    · refine ⟨?_, hqueue ▸ Drained.of_restored hpost.state hasc hpost.restored (List.Subset.refl _)⟩
      rw [hpost.state]
      exact List.suffix_refl _
    · obtain ⟨hafter, hnone, hsome⟩ := hpost
      refine ⟨?_, ?_⟩
      · rw [hafter]
        exact List.suffix_append _ _
      · cases hbuilt : segmentOf? start.next (start.memory.table table).entries with
        | none =>
          obtain ⟨hempty, hrestored⟩ := hnone hbuilt
          have hdrained : Drained [] (table :: rest) 1 start { start.allocated with disk := after.disk } :=
            hqueue ▸ Drained.of_restored rfl hasc hrestored (List.subset_cons_self _ _)
          rw [hbuilt] at hafter
          rw [hafter]
          exact hdrained.skip hempty
        | some segment =>
          obtain ⟨hentries, hcommits⟩ := hsome segment hbuilt
          rw [hbuilt] at hafter hcommits
          exact .of_table hafter hasc hentries hcommits
  · rintro t (ht | ⟨segment, hbuilt, hentries, hcommits⟩)
    · exact .spared (.inl rfl) ht
    · rw [hbuilt] at hcommits
      exact .of_table hentries hcommits

/-! ## Writing tables out -/

/-- How many generations are handed out when tables are written out: one for each table gotten to. -/
def attempts : List Nat → Workspace → Nat
  | [], _ => 0
  | table :: rest, workspace =>
    match (writeTable table rest).run.run workspace with
    | (.ok _, after) => attempts rest after + 1
    | (.error _, _) => 1

theorem attempts_le (tables : List Nat) (workspace : Workspace) :
    attempts tables workspace ≤ tables.length := by
  induction tables generalizing workspace with
  | nil => exact Nat.le_refl _
  | cons table rest ih =>
    rw [attempts, List.length_cons]
    split
    · exact Nat.succ_le_succ (ih _)
    · exact Nat.le_add_left _ _

theorem attempts_pos {tables : List Nat} (h : tables ≠ []) (workspace : Workspace) :
    0 < attempts tables workspace := by
  cases tables with
  | nil => exact absurd rfl h
  | cons table rest =>
    rw [attempts]
    split
    · exact Nat.succ_pos _
    · exact Nat.one_pos

theorem attempts_of_ok {table : Nat} {rest : List Nat} {middle : Workspace}
    (hrun : (writeTable table rest).run.run start = (.ok (), middle)) :
    attempts (table :: rest) start = 1 + attempts rest middle := by
  rw [attempts, hrun, Nat.add_comm]

/-- **Writing the waiting tables out**, oldest first, gets to all of them or leaves the rest waiting; a
crash finds the first of them committed. -/
theorem runs_flushTables {tables : List Nat} (hqueue : start.engine.queue = tables)
    (hu : start.snapshot.Unshared) (hasc : ∀ segment ∈ start.engine.live, Ascending segment.entries) :
    Runs (flushTables tables).run start
      (fun result after => start.engine.segments <:+ after.engine.segments ∧
        ∃ written rest, written ++ rest = tables ∧
          Drained written rest (attempts tables start) start after ∧ (result = .ok () → rest = []))
      (Interrupted (· <+: tables) (attempts tables start) start) := by
  induction tables generalizing start with
  | nil =>
    have hdrained := Drained.refl hu hasc
    rw [hqueue] at hdrained
    refine Runs.pure _ ⟨List.suffix_refl _, [], [], rfl, hdrained, fun _ => rfl⟩ (.refl ?_ _ hu)
    exact List.prefix_refl _
  | cons table rest ih =>
    rw [flushTables_cons]
    have hreached : ∀ t, Interrupted (fun written => written = [] ∨ written = [table]) 1 start t →
        Interrupted (· <+: table :: rest) (attempts (table :: rest) start) start t := by
      refine fun t ht => ht.mono ?_ (attempts_pos (List.cons_ne_nil _ _) start)
      rintro written (rfl | rfl)
      · exact List.nil_prefix
      · exact ⟨rest, rfl⟩
    refine Runs.andThen ((runs_writeTable hqueue hu hasc).withRun.monoCrash hreached) ?_ ?_
    · rintro ⟨⟩ middle - ⟨⟨holder, hfirst⟩, hrun⟩
      rw [attempts_of_ok hrun]
      refine (ih hfirst.queue hfirst.unshared hfirst.ascending).mono ?_ ?_
      · rintro result after ⟨holder', written, rest', rfl, hdrained, hall⟩ -
        have hlive : middle.engine.live ⊆ after.engine.live := List.map_subset _ holder'.subset
        exact ⟨holder.trans holder', table :: written, rest', rfl, hfirst.trans hdrained hlive, hall⟩
      · exact fun t ht => hfirst.interrupted ht fun more hmore => (List.prefix_cons_inj table).2 hmore
    · rintro error after ⟨⟨holder, hfailed⟩, hrun⟩
      refine ⟨holder, [], table :: rest, rfl, ?_, by simp⟩
      rw [attempts, hrun]
      exact hfailed

end Maintenance

end LsmTree
