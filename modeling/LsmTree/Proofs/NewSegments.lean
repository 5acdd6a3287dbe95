import LsmTree.Proofs.LengthenedPaths
import LsmTree.Proofs.Vacancy

/-!
# New segments beside old files

Generations are handed out in order, from the one that the opening has made out to be new, and the names of
each are free. So building a segment never touches a file that was there, for as long as the counter does not
start again from zero:

* **`Manager.Service`** — a manager at work in a volume: **`Service.Ready.take`** is one call of it, and
  **`Service.Ready.run`** any number of them;
* **`Manager.ready_of_load`** — what an opening returns is ready;
* **`Manager.new_segments_overwrite_nothing`** — from the opening to the last call.

Names whose path is too long to be looked up are not found when a directory is opened.
**`Manager.overlong_name_is_passed_over`** shows a file with such a name, past whose generation the counter
does not go.
-/

namespace LsmTree

/-! ## A directory of a volume -/

/-- The generations in the names of all files are below a limit. -/
theorem Snapshot.parsed_lt {s : Snapshot} {limit : Nat} (h : s.names.fileNames.all (fun name =>
      (FileName.parseName? name).all fun file => file.1.toNat < limit) = true) :
    ∀ name bytes generation half, s.file? name = some bytes →
      FileName.parseName? name = some (generation, half) → generation.toNat < limit := by
  intro name bytes generation half hfile hparse
  have hmem : name ∈ s.names.fileNames :=
    Snapshot.mem_fileNames.2 ⟨bytes, Snapshot.file?_eq_holding.1 hfile⟩
  have hlow := List.all_eq_true.1 h name hmem
  rw [hparse] at hlow
  exact of_decide_eq_true hlow

namespace Volume

variable {volume : Volume} {path : String} {dir : Directory}

/-- **A directory that was touched** under some names only is found at its path as the operation left it. -/
theorem onDisk_touched {α : Type} {operation : StateM Disk α} {mine : String → Prop}
    (held : Snapshot → Prop) (h : volume.folder path = .ok dir)
    (hends : Ends operation (volume.disk path) fun _ after =>
      (volume.disk path).Touched mine after ∧ held after.snapshot) :
    (∃ dir', (volume.onDisk path operation).2.folder path = .ok dir') ∧
      held ((volume.onDisk path operation).2.snapshot path) := by
  obtain ⟨htouched, hheld⟩ := hends
  obtain ⟨hreached, hsame⟩ := update_of_stands h htouched.stands
  refine ⟨hreached, ?_⟩
  show held ((volume.update path (operation.run (volume.disk path)).2).snapshot path)
  rw [hsame]
  exact hheld

end Volume

/-! ## Managers in service -/

namespace Manager

/-- A manager at work, and the volume with its directory. -/
structure Service where
  manager : Manager
  volume : Volume

namespace Service

/-- What a manager is asked for, or what else happens to its files. -/
inductive Call
  | allocate
  | build (entries : List Entry)
  /-- Commits segments, newest first. -/
  | commit (segments : List Segment)
  /-- Takes the files of a segment away, as the last handle on a segment that was replaced does. -/
  | remove (generation : UInt64)

/-- How many generations a call hands out: one for a segment, whether or not it comes to be. -/
def Call.handsOut : Call → Nat
  | .allocate | .build _ => 1
  | .commit _ | .remove _ => 0

/-- How many generations a number of calls hand out. -/
def handedOut : List Call → Nat
  | [] => 0
  | call :: rest => call.handsOut + handedOut rest

theorem handedOut_append (earlier later : List Call) :
    handedOut (earlier ++ later) = handedOut earlier + handedOut later := by
  induction earlier with
  | nil => exact (Nat.zero_add _).symm
  | cons call rest ih => rw [List.cons_append, handedOut, handedOut, ih, Nat.add_assoc]

/-- The generations that a call hands out, and what it leaves behind, whether it succeeds or fails. -/
def take (dir : String) (service : Service) : Call → List UInt64 × Service
  | .allocate =>
    let (generation, manager) := service.manager.allocate
    ([generation], { service with manager })
  | .build entries =>
    let (generation, manager) := service.manager.allocate
    let (_, volume) := service.volume.onDisk dir (Manager.build manager.sync generation entries).run
    ([generation], { manager, volume })
  | .commit segments =>
    let (_, volume) := service.volume.onDisk dir (service.manager.commit segments).run
    ([], { service with volume })
  | .remove generation =>
    let (_, volume) := service.volume.onDisk dir (Segment.remove generation)
    ([], { service with volume })

/-- One call after another, with all generations that they hand out. -/
def run (dir : String) (service : Service) : List Call → List UInt64 × Service
  | [] => ([], service)
  | call :: rest =>
    let (generations, service) := service.take dir call
    let (more, service) := service.run dir rest
    (generations ++ more, service)

variable {dir : String} {service : Service} {first : Nat}

/-- The directory is there, and the next generation and all later ones are free. After the last generation
that there is the counter starts from zero. -/
structure Ready (dir : String) (first : Nat) (service : Service) : Prop where
  reached : ∃ entries, service.volume.folder dir = .ok entries
  vacant : (service.volume.snapshot dir).Vacant (Path.room? dir) first
  next : first < UInt64.size → service.manager.next.toNat = first

namespace Ready

/-- The same of the directory when an operation starts. -/
theorem vacant_disk (h : service.Ready dir first) :
    (service.volume.disk dir).snapshot.Vacant (service.volume.disk dir).room first := by
  obtain ⟨_, hfolder⟩ := h.reached
  rw [Volume.snapshot_disk hfolder]
  exact h.vacant

theorem next_succ (h : service.Ready dir first) (hroom : first + 1 < UInt64.size) :
    (service.manager.next + 1).toNat = first + 1 := by
  have hnext := h.next (by omega)
  rw [Kept.toNat_succ (by rw [hnext]; exact hroom), hnext]

/-- An operation of the manager that leaves generations free. -/
theorem onDisk {α : Type} {operation : StateM Disk α} {mine : String → Prop} {manager : Manager}
    {later : Nat} (h : service.Ready dir first)
    (hends : Ends operation (service.volume.disk dir) fun _ after =>
      (service.volume.disk dir).Touched mine after ∧
        after.snapshot.Vacant (service.volume.disk dir).room later)
    (hnext : later < UInt64.size → manager.next.toNat = later) :
    Ready dir later ⟨manager, (service.volume.onDisk dir operation).2⟩ := by
  obtain ⟨_, hfolder⟩ := h.reached
  obtain ⟨hreached, hvacant⟩ := Volume.onDisk_touched (Snapshot.Vacant _ later) hfolder hends
  exact ⟨hreached, hvacant, hnext⟩

/-- What building the next segment leaves. -/
theorem ends_build (h : service.Ready dir first) (hroom : first < UInt64.size) (entries : List Entry) :
    Ends (Manager.build service.manager.sync service.manager.next entries).run (service.volume.disk dir)
      fun _ after => (service.volume.disk dir).Touched (fun name =>
          name ∈ FileName.ofGeneration service.manager.next ∧ fitsIn (Path.room? dir) name = true) after ∧
        after.snapshot.Vacant (Path.room? dir) (first + 1) ∧
        ∀ name bytes, (service.volume.disk dir).snapshot.file? name = some bytes →
          after.snapshot.file? name = some bytes :=
  h.vacant_disk.built (h.next hroom) service.manager.sync entries

/-- **One call** hands out generations in order, and leaves the later ones free. -/
theorem take (h : service.Ready dir first) (call : Call) (hroom : first + call.handsOut ≤ UInt64.size) :
    (service.take dir call).1.map UInt64.toNat = List.range' first call.handsOut ∧
      (service.take dir call).2.Ready dir (first + call.handsOut) := by
  cases call with
  | allocate =>
    refine ⟨?_, h.reached, ?_, h.next_succ⟩
    · show [service.manager.next.toNat] = [first]
      rw [h.next hroom]
    · exact ⟨h.vacant.whole, fun generation hle => h.vacant.free generation (Nat.le_of_succ_le hle),
        h.vacant.draft⟩
  | build entries =>
    have hends := (h.ends_build hroom entries).mono fun _ _ hafter => And.intro hafter.1 hafter.2.1
    refine ⟨?_, h.onDisk hends h.next_succ⟩
    show [service.manager.next.toNat] = [first]
    rw [h.next hroom]
  | commit segments => exact ⟨rfl, h.onDisk (h.vacant_disk.committed _) h.next⟩
  | remove generation => exact ⟨rfl, h.onDisk (h.vacant_disk.removed generation) h.next⟩

/-- **Any number of calls**, likewise. -/
theorem run (h : service.Ready dir first) (calls : List Call)
    (hroom : first + handedOut calls ≤ UInt64.size) :
    (service.run dir calls).1.map UInt64.toNat = List.range' first (handedOut calls) ∧
      (service.run dir calls).2.Ready dir (first + handedOut calls) := by
  induction calls generalizing service first with
  | nil => exact ⟨rfl, h⟩
  | cons call rest ih =>
    rw [handedOut] at hroom ⊢
    obtain ⟨htold, hready⟩ := h.take call (by omega)
    obtain ⟨hmore, hlast⟩ := ih hready (by omega)
    refine ⟨?_, Nat.add_assoc .. ▸ hlast⟩
    show ((service.take dir call).1 ++ ((service.take dir call).2.run dir rest).1).map _ = _
    rw [List.map_append, htold, hmore, List.range'_append_1]

/-- **Building a segment** leaves every file of the directory with the octets that it had. -/
theorem build_spares (h : service.Ready dir first) (hroom : first < UInt64.size) (entries : List Entry)
    {name : String} {bytes : Bytes} (hfile : (service.volume.snapshot dir).file? name = some bytes) :
    ((service.take dir (.build entries)).2.volume.snapshot dir).file? name = some bytes := by
  obtain ⟨_, hfolder⟩ := h.reached
  have hends := (h.ends_build hroom entries).mono fun _ _ hafter => And.intro hafter.1 hafter.2.2
  rw [Volume.snapshot_disk hfolder] at hends
  have hspared := Volume.onDisk_touched (fun after => ∀ name bytes,
    (service.volume.snapshot dir).file? name = some bytes → after.file? name = some bytes) hfolder hends
  exact hspared.2 name bytes hfile

end Ready

end Service

/-! ## From the opening on -/

/-- The generations that the files of a directory tell of: those that the manifest lists, and those in the
names of files that are short enough. -/
def Known (room : Option Nat) (files : String → Option Bytes) (generation : UInt64) : Prop :=
  (∃ bytes manifest, files FileName.manifest = some bytes ∧ Manifest.decode bytes = .ok manifest ∧
    ∃ recorded ∈ manifest.segments, recorded.generation = generation) ∨
  ∃ name bytes half, files name = some bytes ∧ fitsIn room name = true ∧
    FileName.parseName? name = some (generation, half)

section

variable (config : Config) (volume : Volume) {opened : Volume} {manager : Manager} {segments : List Segment}

/-- **The manager that an opening returns** is ready, and goes on past every generation that was known. -/
theorem ready_of_load (hwhole : (volume.snapshot config.dataDir).Whole)
    (hlow : ∀ name bytes generation half, (volume.snapshot config.dataDir).file? name = some bytes →
      FileName.parseName? name = some (generation, half) → generation.toNat < UInt64.size - 1)
    (hload : load config volume = (.ok (manager, segments), opened)) :
    Service.Ready config.dataDir manager.next.toNat ⟨manager, opened⟩ ∧
      ∀ generation, Known (Path.room? config.dataDir) (volume.snapshot config.dataDir).file? generation →
        generation.toNat < manager.next.toNat := by
  have hkeeps := keeps_prepare config volume
  -- The directories that are made on the way have no files.
  rw [← hkeeps.file?_eq config.dataDir] at hlow ⊢
  replace hwhole := hkeeps.whole hwhole
  unfold load at hload
  split at hload
  · cases hload
  · next prepared hprepare =>
    rw [hprepare] at hwhole hlow ⊢
    have hopened : ((recover config).run.run (prepared.disk config.dataDir)).1 = .ok (manager, segments) :=
      congrArg Prod.fst hload
    obtain rfl : (prepared.onDisk config.dataDir (recover config).run).2 = opened := congrArg Prod.snd hload
    cases hfolder : prepared.folder config.dataDir with
    | error cause =>
      obtain ⟨error, henter⟩ := Volume.enter_unreached hfolder
      rw [recover_of_enter henter] at hopened
      cases hopened
    | ok dir =>
      have hdisk := Volume.snapshot_disk hfolder
      rw [← hdisk] at hwhole hlow ⊢
      have hends : Ends (recover config).run (prepared.disk config.dataDir) _ :=
        ends_recover_vacant config hwhole fun generation hmem => by
          obtain ⟨name, hseen, half, hparse⟩ := mem_generations_seen.1 hmem
          obtain ⟨⟨bytes, hfile⟩, -⟩ := mem_seen.1 hseen
          exact hlow name bytes generation half hfile hparse
      obtain ⟨htouched, hvacant, hbound, hlisted⟩ := hends manager segments hopened
      have hleft : Ends (recover config).run (prepared.disk config.dataDir) fun _ after =>
          (prepared.disk config.dataDir).Touched (fun _ => True) after ∧
            after.snapshot.Vacant (prepared.disk config.dataDir).room manager.next.toNat :=
        ⟨htouched, hvacant⟩
      obtain ⟨hreached, hvacant⟩ :=
        Volume.onDisk_touched (Snapshot.Vacant _ manager.next.toNat) hfolder hleft
      refine ⟨⟨hreached, hvacant, fun _ => rfl⟩, ?_⟩
      rintro generation (⟨bytes, manifest, hwritten, hdecode, recorded, hmem, rfl⟩ |
        ⟨name, bytes, half, hfile, hfits, hparse⟩)
      · exact hbound _ (hlisted bytes manifest hwritten hdecode recorded hmem)
      · exact hbound _ (mem_generations_seen.2 ⟨name, mem_seen.2 ⟨⟨bytes, hfile⟩, hfits⟩, half, hparse⟩)

/-- **New segments never overwrite existing files.** However a directory came to be that opens: as long as
the counter does not start again from zero, each generation that is handed out is past all that were known
and past all that were handed out before, and building a segment, whether it succeeds or fails, leaves every
file of the directory with the octets that it had. -/
theorem new_segments_overwrite_nothing (hwhole : (volume.snapshot config.dataDir).Whole)
    (hlow : ∀ name bytes generation half, (volume.snapshot config.dataDir).file? name = some bytes →
      FileName.parseName? name = some (generation, half) → generation.toNat < UInt64.size - 1)
    (hload : load config volume = (.ok (manager, segments), opened)) (calls : List Service.Call)
    (hroom : manager.next.toNat + Service.handedOut calls ≤ UInt64.size) :
    let service : Service := ⟨manager, opened⟩
    let told := (service.run config.dataDir calls).1
    (∀ generation ∈ told, ∀ older, Known (Path.room? config.dataDir)
        (volume.snapshot config.dataDir).file? older → older < generation) ∧
      told.Pairwise (· < ·) ∧
      ∀ earlier entries later, calls = earlier ++ .build entries :: later →
        let before := (service.run config.dataDir earlier).2
        let after := (before.take config.dataDir (.build entries)).2
        ∀ name bytes, (before.volume.snapshot config.dataDir).file? name = some bytes →
          (after.volume.snapshot config.dataDir).file? name = some bytes := by
  intro service told
  obtain ⟨hready, hknown⟩ := ready_of_load config volume hwhole hlow hload
  obtain ⟨htold, -⟩ := hready.run calls hroom
  refine ⟨fun generation hmem older holder => ?_, ?_, ?_⟩
  · have hle : manager.next.toNat ≤ generation.toNat := by
      have hmem' : generation.toNat ∈ told.map UInt64.toNat := List.mem_map_of_mem hmem
      rw [htold, List.mem_range'_1] at hmem'
      exact hmem'.1
    exact UInt64.lt_iff_toNat_lt.2 (Nat.lt_of_lt_of_le (hknown older holder) hle)
  · have hsorted : (told.map UInt64.toNat).Pairwise (· < ·) := htold ▸ List.pairwise_lt_range'
    exact (List.pairwise_map.1 hsorted).imp UInt64.lt_iff_toNat_lt.2
  · rintro earlier entries later rfl
    intro before after name bytes hfile
    rw [Service.handedOut_append, Service.handedOut, Service.Call.handsOut] at hroom
    obtain ⟨-, hbefore⟩ := hready.run earlier (by omega)
    exact hbefore.build_spares (by omega) entries hfile

end

/-- A data directory that was put together by hand. The manifest lists one segment and does not tell the next
generation; a segment that shares its files is left over, and so are two files under names that the store
would not give. -/
def putTogether : Volume :=
  let listed := (Manifest.current 0 [⟨7, 1, 2, 24, some 3332814365⟩]).encode.toOption.getD []
  let (manifest, contents) := flushed.contents.add listed
  let (extra, contents) := contents.add [5]
  let linked := [Half.data, .index].filterMap fun half =>
    (flushed.names.get? (FileName.segment half 1)).map fun node => (FileName.segment half 7, node)
  let files := (FileName.manifest, .file manifest) :: ("segment_+9.index", .file extra) ::
    ("segment_0000011.data", .file extra) :: linked ++ flushed.names.entries
  ⟨⟨[("db", .folder files)]⟩, contents⟩

/-- Calls that hand out four generations. The segment of the third is refused. -/
def handful : List Service.Call :=
  [.allocate, .build [.put [1] [8]], .commit [], .remove 7, .build [.put [2] [1], .put [1] [1]], .build []]

/-- There the first generation that is handed out is past the one in the longest name, and the segment that
is built with the second stays when the next one is refused. -/
theorem new_segments_overwrite_nothing_putTogether : ∃ service : Service, ∃ segments,
    load { dataDir := "db" } putTogether = (.ok (service.manager, segments), service.volume) ∧
      (service.run "db" handful).1 = [12, 13, 14, 15] ∧
      (∀ older, Known (Path.room? "db") (putTogether.snapshot "db").file? older → older < 12) ∧
      Known (Path.room? "db") (putTogether.snapshot "db").file? 11 ∧
      let before := (service.run "db" (handful.take 4)).2
      let after := (before.take "db" (.build [.put [2] [1], .put [1] [1]])).2
      (before.volume.snapshot "db").file? (FileName.segment .data 13) = some [1, 8] ∧
      (after.volume.snapshot "db").file? (FileName.segment .data 13) = some [1, 8] := by
  have hwhole : (putTogether.snapshot "db").Whole := Snapshot.Whole.of_entries (by decide +kernel)
  have hlow : ∀ name bytes generation half, (putTogether.snapshot "db").file? name = some bytes →
      FileName.parseName? name = some (generation, half) → generation.toNat < UInt64.size - 1 :=
    Snapshot.parsed_lt (by decide +kernel)
  have hrun : (match load { dataDir := "db" } putTogether with
      | (.ok (manager, _), opened) => decide (manager.next.toNat = 12 ∧
          (Service.run "db" ⟨manager, opened⟩ handful).1 = [12, 13, 14, 15] ∧
          ((Service.run "db" ⟨manager, opened⟩ (handful.take 4)).2.volume.snapshot "db").file?
            (FileName.segment .data 13) = some [1, 8])
      | (.error _, _) => false) = true := by
    decide +kernel
  split at hrun
  · next manager segments opened hload =>
    obtain ⟨hnext, htold, hbuilt⟩ := of_decide_eq_true hrun
    have hroom : manager.next.toNat + Service.handedOut handful ≤ UInt64.size := by
      rw [hnext]
      decide
    obtain ⟨hpast, -, hspares⟩ :=
      new_segments_overwrite_nothing { dataDir := "db" } putTogether hwhole hlow hload handful hroom
    dsimp only at hpast hspares
    refine ⟨⟨manager, opened⟩, segments, hload, htold, ?_, ?_, hbuilt, ?_⟩
    · exact hpast 12 (by rw [htold]; decide)
    · exact .inr ⟨"segment_0000011.data", [5], .data, by decide +kernel⟩
    · have hcall : handful = handful.take 4 ++ .build [.put [2] [1], .put [1] [1]] :: [.build []] := rfl
      exact hspares _ _ _ hcall _ _ hbuilt
  · cases hrun

/-! ## Names that are too long -/

/-- A directory with a manifest that lists nothing, and with an empty file whose name has 33 octets. -/
def padded : Directory :=
  ⟨[(FileName.manifest, .file 0), ("segment_00000000000000000007.data", .file 1)]⟩

/-- A volume with that directory. -/
def sparse : Volume :=
  ⟨⟨[("d", .folder padded.entries)]⟩, ⟨[(Manifest.current 0 []).encode.toOption.getD [], []]⟩⟩

/-- The file of the long name is passed over at a path that leaves 31 octets for a name. -/
theorem load_padded {path : String} (hfolder : sparse.folder path = .ok padded)
    (hdisk : sparse.disk path = ⟨.ok padded, sparse.contents, some 31, none, none, []⟩) :
    ∃ opened, load { dataDir := path } sparse = (.ok (⟨true, 1⟩, []), opened) := by
  have hprepare : prepare { dataDir := path } sparse = (.ok (), sparse) := by
    simp only [prepare, Volume.node_of_folder hfolder]
  have hrun : ((recover {}).run.run ⟨.ok padded, sparse.contents, some 31, none, none, []⟩).1 =
      .ok (⟨true, 1⟩, []) := by
    decide +kernel
  rw [← hdisk] at hrun
  rw [load, hprepare]
  exact ⟨_, Prod.ext hrun rfl⟩

/-- **A name whose path is too long is passed over.** There is a file of generation seven, and the directory
opens, but the generation that is handed out first is the first. -/
theorem overlong_name_is_passed_over :
    let path := Path.lengthened "d" 2031
    (sparse.snapshot path).Whole ∧
      (∀ name bytes generation half, (sparse.snapshot path).file? name = some bytes →
        FileName.parseName? name = some (generation, half) → generation.toNat < UInt64.size - 1) ∧
      ∃ manager segments opened, load { dataDir := path } sparse = (.ok (manager, segments), opened) ∧
        ∃ generation ∈ (Service.run path ⟨manager, opened⟩ [.allocate]).1, ∃ name bytes older half,
          (sparse.snapshot path).file? name = some bytes ∧
            FileName.parseName? name = some (older, half) ∧ ¬ older < generation := by
  intro path
  have hdirectory : sparse.folder "d" = .ok padded := rfl
  have hfolder : sparse.folder path = .ok padded := Volume.folder_lengthened hdirectory (by decide)
  obtain ⟨opened, hload⟩ :=
    load_padded hfolder (Volume.disk_lengthened hdirectory (by decide) (by decide))
  rw [Volume.snapshot_of_folder hfolder]
  refine ⟨Snapshot.Whole.of_entries (by decide +kernel), Snapshot.parsed_lt (by decide +kernel),
    ⟨true, 1⟩, [], opened, hload, ?_⟩
  exact ⟨1, List.mem_singleton.2 rfl, "segment_00000000000000000007.data", [], 7, .data, by decide +kernel⟩

end Manager

end LsmTree
