import LsmTree.Proofs.Consistency

/-!
# Disk and engine in step

While an open engine uses a directory, nothing is in it that the engine does not know of, and nothing that
it knows of is missing. Every step that can fail half way cleans up after itself:

* **`World.Accounts`** — each file is the manifest, or belongs to a segment of the engine or to a replaced
  one whose files are still to be taken away;
* **`World.Accounts.step`** — every event leaves it so;
* **`World.InStep`**, **`World.stays_in_step`** — the directory matches the engine after every event, and
  only the files of replaced segments that a cursor holds are left besides.
-/

namespace LsmTree

open Snapshot (SameFiles Gains)
open Maintenance (Workspace Growth Retired)

/-- Each file is the manifest, or one of the given segments, or one of the replaced ones. -/
def Accounted (segments : List Segment) (replaced : List Handle) (snapshot : Snapshot) : Prop :=
  ∀ name bytes, snapshot.holding name = .file bytes → name = FileName.manifest ∨
    name ∈ filesOf segments ∨ name ∈ filesOf (replaced.map Handle.segment)

section Accounted

variable {segments : List Segment} {handles replaced more : List Handle} {s t : Snapshot}

theorem Clean.accounted (h : Clean segments s) : Accounted segments replaced s := by
  intro name bytes hfile
  rcases h name bytes hfile with hname | ⟨segment, hmem, half, hname⟩
  · exact .inl hname
  · exact .inr (.inl (mem_filesOf.2 ⟨segment, hmem, half, hname⟩))

theorem Accounted.of_sameFiles (h : Accounted segments replaced s) (hsame : SameFiles s t) :
    Accounted segments replaced t :=
  fun name bytes hfile => h name bytes ((hsame.same name bytes).1 hfile)

/-- Files that are new belong to segments that are; those that stay belonged to something before. -/
theorem Accounted.grown {segments' : List Segment} (h : Accounted segments replaced s)
    (hgains : Gains (FileName.manifest :: filesOf segments') s t) (hsub : segments ⊆ segments') :
    Accounted segments' replaced t := by
  intro name bytes hfile
  rcases hgains name bytes hfile with hnew | ⟨old, hold⟩
  · exact (List.mem_cons.1 hnew).imp_right .inl
  · rcases h name old hold with hmanifest | hlive | hreplaced
    · exact .inl hmanifest
    · exact .inr (.inl (filesOf_subset hsub hlive))
    · exact .inr (.inr hreplaced)

/-- Segments that are replaced keep their files only as long as they are among those to be taken away. -/
theorem Accounted.retired {segments' : List Segment}
    (h : Accounted (handles.map Handle.segment) replaced s)
    (hgains : Gains (FileName.manifest :: filesOf segments') s t) (hretired : Retired handles more t) :
    Accounted segments' (replaced ++ more) t := by
  intro name bytes hfile
  rcases hgains name bytes hfile with hnew | ⟨old, hold⟩
  · exact (List.mem_cons.1 hnew).imp_right .inl
  · rcases h name old hold with hmanifest | hlive | hreplaced
    · exact .inl hmanifest
    · obtain ⟨segment, hmem, half, rfl⟩ := mem_filesOf.1 hlive
      obtain ⟨handle, hhandle, rfl⟩ := List.mem_map.1 hmem
      -- It was one of the replaced segments: its files are to be taken away later, or are gone.
      rcases hretired handle hhandle with hspared | hgone
      · have hmore : handle ∈ replaced ++ more := List.mem_append_right _ hspared
        exact .inr (.inr (mem_filesOf.2 ⟨_, List.mem_map_of_mem hmore, half, rfl⟩))
      · exact absurd hfile (hgone half bytes)
    · have hsub : replaced.map Handle.segment ⊆ (replaced ++ more).map Handle.segment :=
        List.map_subset _ (List.subset_append_left _ _)
      exact .inr (.inr (filesOf_subset hsub hreplaced))

/-- The same when files of replaced segments are taken away later. -/
theorem Accounted.released (h : Accounted segments replaced s) (hgains : Gains [] s t)
    (hretired : Retired replaced more t) : Accounted segments more t := by
  intro name bytes hfile
  obtain ⟨old, hold⟩ := (hgains name bytes hfile).resolve_left List.not_mem_nil
  rcases h name old hold with hmanifest | hlive | hreplaced
  · exact .inl hmanifest
  · exact .inr (.inl hlive)
  · obtain ⟨segment, hmem, half, rfl⟩ := mem_filesOf.1 hreplaced
    obtain ⟨handle, hhandle, rfl⟩ := List.mem_map.1 hmem
    rcases hretired handle hhandle with hspared | hgone
    · exact .inr (.inr (mem_filesOf.2 ⟨_, List.mem_map_of_mem hspared, half, rfl⟩))
    · exact absurd hfile (hgone half bytes)

end Accounted

namespace World

variable {world : World} {ledger : Ledger} {engine : Engine}

/-- While an engine is open every file of its directory is accounted for. -/
def Accounts (world : World) : Prop :=
  ∀ engine, world.engine = some engine → engine.closed = false →
    Accounted engine.live world.replaced world.dir

theorem Idle.accounts (h : Idle world ledger) : Accounts world := by
  intro engine hengine hopen
  -- An engine that is still there has closed the directory.
  rw [(h.closed engine hengine).1] at hopen
  cases hopen

/-! ## Files taken away -/

/-- What is left to be taken away is held by a cursor. -/
theorem isHeld_of_mem_replaced {handle : Handle} (h : handle ∈ world.releaseFiles.replaced) :
    world.releaseFiles.isHeld handle = true := by
  rw [replaced_releaseFiles] at h
  exact (List.mem_filter.1 h).2

theorem Accounts.releaseFiles (h : Accounts world) (hu : world.dir.Unshared) :
    Accounts world.releaseFiles := by
  intro engine hengine hopen
  have hremoved := releaseFiles_unheld hu
  rw [replaced_releaseFiles]
  exact (h engine hengine hopen).released hremoved.gains (.of_removed hremoved)

/-! ## Events

Maintenance that replaces no segment adds files of new segments at most. A compaction hands the segments that
it replaces over, or takes their files away itself; an opening leaves no file but the manifest and those of
the segments; a closing that succeeds ends the account. -/

theorem Accounts.growth (h : Accounts world) (husing : Using world ledger engine) {handed : Nat}
    {complete : Prop} {last : Workspace} (hgrowth : Growth (world.workspace engine) handed complete last) :
    Accounts (world.after last) := by
  intro engine' hengine hopen
  cases hengine
  exact (h engine husing.present husing.opened).grown hgrowth.gains
    (List.map_subset _ hgrowth.older.subset)

theorem Accounts.flush (h : Accounts world) (husing : Using world ledger engine) :
    Accounts (world.act .flush).2 := by
  have hruns : Runs _ (world.workspace engine) _ _ :=
    Maintenance.runs_flush husing.opened husing.unshared husing.sound
  obtain ⟨hgrowth, -⟩ := hruns.apply (Disk.plain_ofSnapshot world.dir)
  rw [act, maintain_eq _ husing.present]
  exact h.growth husing hgrowth

theorem Accounts.close (h : Accounts world) (husing : Using world ledger engine) :
    Accounts (world.act .close).2 := by
  have hruns : Runs _ (world.workspace engine) _ _ :=
    Maintenance.runs_close husing.opened husing.unshared husing.sound
  obtain ⟨hpost, -⟩ := hruns.apply (Disk.plain_ofSnapshot world.dir)
  rw [act, maintain_eq _ husing.present]
  cases hresult : (Maintenance.close.run.run (world.workspace engine)).1 with
  | ok value =>
    -- The engine has let go of everything and is not open any more.
    rw [hresult] at hpost
    obtain ⟨last, -, hlast⟩ := hpost
    intro engine' hengine hopen
    cases hengine
    rw [hlast] at hopen
    cases hopen
  | error error =>
    rw [hresult] at hpost
    exact h.growth husing hpost

theorem Accounts.compact (h : Accounts world) (husing : Using world ledger engine) :
    Accounts (world.act .compact).2 := by
  have hruns : Runs _ (world.workspace engine) _ _ :=
    Maintenance.runs_compact world.isHeld husing.opened husing.unshared husing.sound
  obtain ⟨hpost, -⟩ := hruns.apply (Disk.plain_ofSnapshot world.dir)
  rw [act, maintain_eq _ husing.present]
  cases hresult : ((Maintenance.compact world.isHeld).run.run (world.workspace engine)).1 with
  | ok replaced =>
    rw [hresult] at hpost
    obtain ⟨hprogress, hretires⟩ := hpost
    intro engine' hengine hopen
    cases hengine
    exact (h engine husing.present husing.opened).retired hprogress.gains hretires.retired
  | error error =>
    -- A compaction that fails has replaced nothing.
    rw [hresult] at hpost
    intro engine' hengine hopen
    have haccounted := h.growth husing hpost engine' hengine hopen
    show Accounted engine'.live (world.replaced ++ []) _
    rw [List.append_nil]
    exact haccounted

theorem Accounts.load (hconsistent : Consistent world ledger) (config : Config)
    (hroom : (ledger.note world (.load config)).handedOut < UInt64.size - 1) :
    Accounts (world.step (.load config)).2 := by
  rw [note_handedOut] at hroom
  have hidle : Idle world.discard _ := hconsistent.discard hroom
  rcases hidle.load rfl hroom config with
    ⟨answer, opened, segments, engine, hload, -, hopened, -⟩ | ⟨fault, left, hload, hleft⟩
  · rw [step_eq, act, hload]
    intro engine' hengine _
    cases hopened.present.symm.trans hengine
    rw [hopened.live]
    exact hopened.clean.accounted
  · rw [step_eq, act, hload]
    exact hleft.releaseFiles.accounts

theorem Accounts.change {changed : Except OsError Directory} (h : Accounts world)
    (hsame : ∀ names, changed = .ok names → SameFiles world.dir { world.dir with names }) :
    Accounts (world.change changed).2 := by
  cases hcase : changed with
  | error cause => exact h
  | ok names => exact fun engine hengine hopen => (h engine hengine hopen).of_sameFiles (hsame names hcase)

theorem Accounts.maintenance (h : Accounts world) (hconsistent : Consistent world ledger) {event : Event}
    (hpersists : event.persists = true) : Accounts (world.act event).2 := by
  rcases hconsistent with ⟨engine, husing⟩ | hidle
  · cases event with
    | flush => exact h.flush husing
    | compact => exact h.compact husing
    | close => exact h.close husing
    | _ => cases hpersists
  · rw [(hidle.act_eq hpersists).1]
    exact h

/-- **Each event** leaves every file accounted for, as long as there are generations left. -/
theorem Accounts.step (h : Accounts world) (hconsistent : Consistent world ledger) (event : Event)
    (hroom : (ledger.note world event).handedOut < UInt64.size - 1) : Accounts (world.step event).2 := by
  have hunshared : (world.act event).2.dir.Unshared := (hconsistent.act event hroom).unshared
  have hact : Accounts (world.act event).2 → Accounts (world.step event).2 := fun hafter => by
    rw [step_eq]
    exact hafter.releaseFiles hunshared
  have hreading : event.isReading = true → Accounts (world.act event).2 := fun hread => by
    obtain ⟨cursors, heq⟩ := act_reading world hread
    rw [heq]
    exact h
  cases event with
  | load config => exact .load hconsistent config hroom
  | upsert entry =>
    refine hact ?_
    rw [World.act]
    split
    · exact h
    · exact h
  | flush => exact hact (h.maintenance hconsistent rfl)
  | compact => exact hact (h.maintenance hconsistent rfl)
  | close => exact hact (h.maintenance hconsistent rfl)
  | drop =>
    rw [note_handedOut] at hroom
    exact hact (hconsistent.discard hroom).accounts
  | crash => exact hact hconsistent.forget.accounts
  | block name => exact hact (h.change fun names hnames => .makeFolder hconsistent.unshared hnames)
  | unblock name => exact hact (h.change fun names hnames => .removeFolder hconsistent.unshared hnames)
  | _ => exact hact (hreading rfl)

theorem Reached.accounts (h : Reached world ledger) (hroom : ledger.handedOut < UInt64.size - 1) :
    Accounts world := by
  induction h with
  | start => exact (Idle.start _).accounts
  | @step world ledger h event ih =>
    have hbefore : ledger.handedOut < UInt64.size - 1 := by
      rw [note_handedOut] at hroom
      exact Nat.lt_of_le_of_lt (Nat.le_add_right _ _) hroom
    exact (ih hbefore).step (h.consistent hbefore) event hroom

theorem Reached.held (h : Reached world ledger) :
    ∀ handle ∈ world.replaced, world.isHeld handle = true := by
  cases h with
  | start => exact fun handle hmem => absurd hmem List.not_mem_nil
  | step => exact fun handle hmem => isHeld_of_mem_replaced hmem

/-! ## In step -/

/-- The directory is what the engine takes it for. -/
structure InStep (world : World) (engine : Engine) : Prop where
  /-- The manifest can be read, and it lists the segments of the engine, oldest first. -/
  manifest : ∃ bytes manifest, world.dir.holding FileName.manifest = .file bytes ∧
    Manifest.decode bytes = .ok manifest ∧ manifest.segments = engine.live.reverse.map Segment.info
  files : ∀ segment ∈ engine.live, ∀ half, ∃ bytes,
    world.dir.holding (FileName.segment half segment.generation) = .file bytes
  /-- Each of them opens as the segment that the engine has, its checksum included. -/
  opens : ∀ segment ∈ engine.live,
    (Segment.load segment.generation (some segment.info) true).run.run (.ofSnapshot world.dir) =
      (.ok segment, .ofSnapshot world.dir)
  /-- A file with the name of a segment belongs to one of these, or to a replaced one that is held. -/
  owned : ∀ name bytes generation half, world.dir.holding name = .file bytes →
    FileName.parseName? name = some (generation, half) →
      name = FileName.segment half generation ∧
        ((∃ segment ∈ engine.live, segment.generation = generation) ∨
          ∃ handle ∈ world.replaced, world.isHeld handle = true ∧ handle.segment.generation = generation)
  finished : ∀ name bytes, world.dir.holding name = .file bytes → FileName.isTemporary name = false

theorem Using.manifest (h : Using world ledger engine) : ∃ bytes manifest,
    world.dir.holding FileName.manifest = .file bytes ∧ Manifest.decode bytes = .ok manifest ∧
      manifest.segments = engine.live.reverse.map Segment.info := by
  obtain ⟨recorded, hkept, -⟩ := h.kept
  obtain ⟨bytes, hencode, hfile⟩ := hkept.committed.written
  exact ⟨bytes, _, hfile, Manifest.decode_encode hencode rfl, rfl⟩

theorem Using.stored (h : Using world ledger engine) : ∀ segment ∈ engine.live, Stored world.dir segment := by
  obtain ⟨recorded, hkept, -⟩ := h.kept
  exact hkept.committed.stored

/-- The names of segments tell which segment they belong to. -/
theorem parseName?_of_mem_filesOf {segments : List Segment} {name : String} {generation : UInt64}
    {half : Half} (hname : name ∈ filesOf segments)
    (hparse : FileName.parseName? name = some (generation, half)) :
    name = FileName.segment half generation ∧ ∃ segment ∈ segments, segment.generation = generation := by
  obtain ⟨segment, hmem, half', rfl⟩ := mem_filesOf.1 hname
  rw [FileName.parseName?_segment] at hparse
  cases hparse
  exact ⟨rfl, segment, hmem, rfl⟩

theorem not_isTemporary_of_mem_filesOf {segments : List Segment} {name : String}
    (hname : name ∈ filesOf segments) : FileName.isTemporary name = false := by
  obtain ⟨segment, -, half, rfl⟩ := mem_filesOf.1 hname
  exact FileName.not_isTemporary_segment half segment.generation

/-- **Disk and engine stay in step.** After any events, from a directory that was empty at the start, the
manifest lists just the segments of the open engine, all of them can be opened with their checksums, and no
other segment has a file but those that a compaction replaced while a cursor holds them. Nothing else
is left of any step that failed. -/
theorem stays_in_step (h : Reached world ledger) (hengine : world.engine = some engine)
    (hopen : engine.closed = false) (hroom : ledger.handedOut < UInt64.size - 1) :
    InStep world engine := by
  have haccounted : Accounted engine.live world.replaced world.dir :=
    h.accounts hroom engine hengine hopen
  rcases h.consistent hroom with ⟨engine', husing⟩ | hidle
  · obtain rfl : engine = engine' := Option.some.inj (hengine.symm.trans husing.present)
    -- What is there follows from what the engine is committed to, what is not from the account of files.
    refine ⟨husing.manifest, fun segment hmem half => ?_, fun segment hmem => ?_,
      fun name bytes generation half hfile hparse => ?_, fun name bytes hfile => ?_⟩
    · obtain ⟨data, index, hdata, hindex, -⟩ := (husing.stored segment hmem).files
      cases half
      · exact ⟨data, hdata⟩
      · exact ⟨index, hindex⟩
    · have hruns : Runs _ (Disk.ofSnapshot world.dir) _ _ :=
        Segment.runs_load segment.generation (some segment.info) true
      obtain ⟨⟨hsame, hresult⟩, -⟩ := hruns.apply (Disk.plain_ofSnapshot world.dir)
      exact Prod.ext (hresult.trans ((husing.stored segment hmem).opened true)) hsame
    · rcases haccounted name bytes hfile with rfl | hlive | hreplaced
      · rw [FileName.parseName?_manifest] at hparse
        cases hparse
      · obtain ⟨hname, howner⟩ := parseName?_of_mem_filesOf hlive hparse
        exact ⟨hname, .inl howner⟩
      · obtain ⟨hname, segment, hmem, hgeneration⟩ := parseName?_of_mem_filesOf hreplaced hparse
        obtain ⟨handle, hhandle, rfl⟩ := List.mem_map.1 hmem
        exact ⟨hname, .inr ⟨handle, hhandle, h.held handle hhandle, hgeneration⟩⟩
    · rcases haccounted name bytes hfile with rfl | hlive | hreplaced
      · exact FileName.not_isTemporary_manifest
      · exact not_isTemporary_of_mem_filesOf hlive
      · exact not_isTemporary_of_mem_filesOf hreplaced
  · rw [(hidle.closed engine hengine).1] at hopen
    cases hopen

/-- A flush that fails because a directory is where the new manifest is to be written, and a compaction
while a cursor holds the segment that it replaces. -/
def withheld : List Event :=
  [.load {}, .upsert (.put [1] [7]), .flush, .cursor "c" .all, .upsert (.tombstone [2]),
    .block "MANIFEST.tmp", .flush, .unblock "MANIFEST.tmp", .compact]

/-- The file of the replaced segment is still there, and nothing of the flush that failed. -/
theorem stays_in_step_withheld : ∃ engine, (World.empty.run withheld).2.engine = some engine ∧
    Reached (World.empty.run withheld).2 (Ledger.empty.noteAll .empty withheld) ∧
    (Ledger.empty.noteAll .empty withheld).handedOut < UInt64.size - 1 ∧
    InStep (World.empty.run withheld).2 engine ∧
    (World.empty.run withheld).2.dir.names.fileNames =
      ["MANIFEST", "segment_000003.index", "segment_000003.data", "segment_000001.index",
        "segment_000001.data"] := by
  have hreached : Reached (World.empty.run withheld).2 (Ledger.empty.noteAll .empty withheld) :=
    Reached.start.run withheld
  have hpresent : (World.empty.run withheld).2.engine.any (fun engine => !engine.closed) = true := by
    decide +kernel
  have hroom : (Ledger.empty.noteAll .empty withheld).handedOut < UInt64.size - 1 := by
    decide +kernel
  cases hengine : (World.empty.run withheld).2.engine with
  | none =>
    rw [hengine] at hpresent
    cases hpresent
  | some engine =>
    rw [hengine] at hpresent
    have hopen : engine.closed = false := by simpa using hpresent
    refine ⟨engine, rfl, hreached, hroom, stays_in_step hreached hengine hopen hroom, ?_⟩
    decide +kernel

end World

end LsmTree
