import LsmTree.Proofs.Bookkeeping
import LsmTree.Proofs.CrashAtomicity
import LsmTree.Proofs.Discovery
import Mathlib.Data.List.Sort

/-!
# What is found by name and what the manifest lists

A directory whose last engine was closed holds the files of its segments and no others. So the manifest
tells nothing that the names of the files do not tell:

* **`Segment.byName`**, **`Committed.discovers`** — committed segments are found by name, in their order;
* **`World.Shut`**, **`World.Reached.shut`** — a directory that was closed, and what is in it;
* **`World.discovery_agrees`** — without its manifest such a directory opens with the same content.
-/

namespace LsmTree

open Snapshot (Within Removed Restored SameFiles Gains)

/-! ## Segments found by name -/

/-- The segment as it opens without a record: its checksum is known only if it is verified. -/
def Segment.byName (verified : Bool) (segment : Segment) : Segment :=
  if verified then segment else { segment with dataCrc := none }

namespace Segment

variable {segment : Segment} {verified : Bool}

@[simp] theorem generation_byName : (segment.byName verified).generation = segment.generation := by
  cases verified <;> rfl

/-- The checksum is not looked at when entries are cut out. -/
@[simp] theorem entries_byName : (segment.byName verified).entries = segment.entries := by
  cases verified <;> rfl

/-- What is recorded of it takes no more room. -/
theorem length_encode_byName :
    (segment.byName verified).info.encode.length ≤ segment.info.encode.length := by
  cases verified with
  | true => exact Nat.le_refl _
  | false =>
    simp only [byName, info, SegmentMeta.encode, SegmentMeta.encodeCrc, List.length_append]
    cases segment.dataCrc <;> simp [count]

end Segment

theorem Stored.byName {s : Snapshot} {segment : Segment} (h : Stored s segment) (verified : Bool) :
    Segment.opened s.holding segment.generation none verified = .ok (segment.byName verified) := by
  obtain ⟨data, index, hdata, hindex, hopen⟩ := h.files
  refine Segment.opened_eq_ok.2 ⟨data, index, hdata, hindex, ?_⟩
  obtain ⟨slots, hchecked, hplain⟩ := Segment.ofFiles_eq_ok (hopen false)
  obtain ⟨slots', hchecked', hverified⟩ := Segment.ofFiles_eq_ok (hopen true)
  cases hchecked.symm.trans hchecked'
  obtain ⟨hsum, horder⟩ := Segment.verify_eq_ok hverified
  have hsame : segment = ⟨segment.generation, data, slots, segment.dataCrc⟩ :=
    (Except.ok.inj hplain).symm
  rw [Segment.ofFiles, hchecked]
  cases verified with
  | false =>
    show Except.ok (Segment.mk segment.generation data slots none) = .ok { segment with dataCrc := none }
    rw [hsame]
  | true =>
    show Segment.verify ⟨segment.generation, data, slots, none⟩ = .ok segment
    have horder' : Segment.disorder? ⟨segment.generation, data, slots, none⟩ = none := horder
    rw [Segment.verify]
    dsimp only [Option.filter_none]
    rw [horder']
    exact congrArg Except.ok hsum.symm

/-- So the content of segments is the same. -/
theorem Content.ofSegments_byName {segments : List Segment} {verified : Bool}
    (hasc : ∀ segment ∈ segments, Ascending segment.entries) :
    ofSegments (segments.map (Segment.byName verified)) = ofSegments segments := by
  funext key
  rw [ofSegments, ofSegments]
  congr 1
  induction segments with
  | nil => rfl
  | cons segment rest ih =>
    have hkeys := hasc segment List.mem_cons_self
    have hsame : (segment.byName verified).find? key = segment.find? key := by
      rw [Segment.find?_eq_lookup hkeys, Segment.find?_eq_lookup (by rwa [Segment.entries_byName]),
        Segment.entries_byName]
    rw [List.map_cons, List.findSome?_cons, List.findSome?_cons, hsame,
      ih fun other hmem => hasc other (List.mem_cons_of_mem _ hmem)]

section Unlisted

variable {s t : Snapshot} {recorded : UInt64} {segments : List Segment} {config : Config}

theorem Snapshot.removed_of_unlink {name : String} {names : Directory} (hu : s.Unshared)
    (h : s.names.unlink name = .ok names) : Removed [name] s { s with names } := by
  cases hholding : s.holding name with
  | file bytes =>
    obtain ⟨names', hunlink, hunshared, hafter⟩ := Snapshot.unlink_of_file hu hholding
    cases hunlink.symm.trans h
    refine ⟨hunshared, fun other => ?_⟩
    rw [hafter]
    by_cases hother : other = name
    · rw [if_pos hother, if_pos (List.mem_singleton.2 hother), hother, hholding]
      rfl
    · rw [if_neg hother, if_neg fun hmem => hother (List.mem_singleton.1 hmem)]
  | _ =>
    have hnot : ∀ bytes, s.holding name ≠ .file bytes := by simp [hholding]
    obtain ⟨cause, hrefused⟩ := Snapshot.unlink_of_not_file hnot
    cases hrefused.symm.trans h

/-- Both files of a committed segment are found by name, whether or not there is a manifest. -/
theorem Committed.mem_found (h : Committed s recorded segments) (ht : Removed [FileName.manifest] s t)
    {segment : Segment} (hmem : segment ∈ segments) (half : Half) :
    (segment.generation, half) ∈ Manager.found t.names.fileNames := by
  obtain ⟨data, index, hdata, hindex, -⟩ := (h.stored segment hmem).files
  have hfile : ∃ bytes, t.holding (FileName.segment half segment.generation) = .file bytes := by
    have hother : FileName.segment half segment.generation ∉ [FileName.manifest] := by
      simp [FileName.segment_ne_manifest]
    cases half with
    | data => exact ⟨data, ht.file_iff.2 ⟨hdata, hother⟩⟩
    | index => exact ⟨index, ht.file_iff.2 ⟨hindex, hother⟩⟩
  refine List.mem_filterMap.2 ⟨_, List.mem_filter.2 ⟨Snapshot.mem_fileNames.2 hfile, ?_⟩,
    FileName.parseName?_segment half segment.generation⟩
  simp [FileName.not_isTemporary_segment]

/-- **What is found by name** are the committed segments, if they have all the files there are. -/
theorem Committed.generations_found (h : Committed s recorded segments)
    (haccounted : Accounted segments [] s) (ht : Removed [FileName.manifest] s t) :
    Manager.generations (Manager.found t.names.fileNames) =
      segments.reverse.map Segment.generation := by
  have hascending : (segments.reverse.map Segment.generation).Pairwise (· < ·) := by
    rw [List.pairwise_map, List.pairwise_reverse]
    exact h.falling
  refine (Manager.generations_sorted _).eq_of_mem_iff hascending fun generation => ?_
  constructor
  · intro hfound
    obtain ⟨name, hname, -, half, hparse⟩ := Manager.mem_generations_found_iff.1 hfound
    obtain ⟨bytes, hfile⟩ := Snapshot.mem_fileNames.1 hname
    rcases haccounted name bytes (ht.file_iff.1 hfile).1 with rfl | hlive | hreplaced
    · rw [FileName.parseName?_manifest] at hparse
      cases hparse
    · obtain ⟨-, segment, hmem, rfl⟩ := World.parseName?_of_mem_filesOf hlive hparse
      exact List.mem_map_of_mem (List.mem_reverse.2 hmem)
    · cases hreplaced
  · intro hmem
    obtain ⟨segment, hsegment, rfl⟩ := List.mem_map.1 hmem
    exact Manager.mem_generations.2 ⟨.data, h.mem_found ht (List.mem_reverse.1 hsegment) .data⟩

/-- They are opened as they are, in their order. -/
theorem Committed.discovered (h : Committed s recorded segments) (haccounted : Accounted segments [] s)
    (ht : Removed [FileName.manifest] s t) (verified : Bool) :
    Manager.discovered t.holding verified (Manager.found t.names.fileNames) =
      .ok (segments.map (Segment.byName verified)).reverse := by
  rw [Manager.discovered, h.generations_found haccounted ht, Manager.mapM_eq_ok, ← List.map_reverse,
    List.forall₂_map_left_iff, List.forall₂_map_right_iff, List.forall₂_same]
  intro segment hreverse
  have hmem := List.mem_reverse.1 hreverse
  refine Manager.sought_eq_ok.2 ⟨?_, Stored.byName ?_ verified⟩
  · simp [Manager.missingHalf?, h.mem_found ht hmem]
  · refine (h.stored segment hmem).of_same fun half => ?_
    rw [ht.holding, if_neg (by simp [FileName.segment_ne_manifest])]

/-- A manifest of them can be written. -/
theorem Committed.encodes_byName (h : Committed s recorded segments) (verified : Bool) (next : UInt64) :
    ∃ bytes, (Manifest.current next
      ((segments.map (Segment.byName verified)).reverse.map Segment.info)).encode = .ok bytes := by
  obtain ⟨bytes, hencode, -⟩ := h.written
  have hrecords : ∀ others : List Segment,
      ((others.map (Segment.byName verified)).map Segment.info |>.flatMap SegmentMeta.encode).length ≤
        ((others.map Segment.info).flatMap SegmentMeta.encode).length := by
    intro others
    induction others with
    | nil => exact Nat.le_refl _
    | cons segment rest ih =>
      simp only [List.map_cons, List.flatMap_cons, List.length_append]
      exact Nat.add_le_add Segment.length_encode_byName ih
  have hle := hrecords segments.reverse
  unfold Manifest.encode at hencode ⊢
  dsimp only at hencode ⊢
  split at hencode
  · next hfits =>
    refine ⟨_, if_pos (Nat.lt_of_le_of_lt ?_ hfits)⟩
    rw [← List.map_reverse]
    simp only [Manifest.payload, Manifest.current, List.length_append, Bytes.length_word, List.length_map]
    exact Nat.add_le_add_left hle _
  · cases hencode

/-- **An opening without the manifest** finds the committed segments by name. -/
theorem Committed.discovers (h : Committed s recorded segments) (haccounted : Accounted segments [] s)
    (ht : Removed [FileName.manifest] s t)
    (hfree : s.holding (FileName.temporary FileName.manifest) ≠ .folder) (config : Config) :
    ∃ manager after, Manager.opening config t =
        (.ok (manager, segments.map (Segment.byName config.verifyChecksums)), after) ∧
      Manager.Discovers config t manager (segments.map (Segment.byName config.verifyChecksums)) after ∧
      after.Unshared := by
  have hnothing : t.holding FileName.manifest = .nothing := by
    obtain ⟨bytes, -, hfile⟩ := h.written
    rw [ht.holding, if_pos (List.mem_singleton_self _), hfile]
    rfl
  have hloaded := h.discovered haccounted ht config.verifyChecksums
  obtain ⟨bytes, hencode⟩ := h.encodes_byName config.verifyChecksums 0
  cases hopens : Manager.opening config t with
  | mk result after =>
    cases result with
    | error error =>
      refine absurd ⟨hloaded, ⟨0, bytes, hencode⟩, ?_⟩
        (Manager.not_discoverable_of_opening ht.unshared hnothing hopens)
      exact fun hfolder => hfree (ht.folder_iff.1 hfolder)
    | ok opened =>
      obtain ⟨manager, opened⟩ := opened
      obtain ⟨hpost, hu⟩ := Manager.discovers_of_opening ht.unshared hnothing hopens
      obtain rfl : opened = segments.map (Segment.byName config.verifyChecksums) :=
        List.reverse_inj.1 (Except.ok.inj (hpost.loaded.symm.trans hloaded))
      exact ⟨manager, after, rfl, hpost, hu⟩

end Unlisted

/-! ## Directories that were closed -/

/-- **An opening that fails** leaves what is committed, and no file that was not there. -/
theorem Manager.runs_refused {start : Disk} {recorded : UInt64} {segments : List Segment}
    (config : Config) (h : Committed start.snapshot recorded segments) :
    Runs (recover config).run start
      (fun result after => match result with
        | .ok _ => True
        | .error _ =>
          Committed after.snapshot recorded segments ∧ Gains [] start.snapshot after.snapshot)
      Snapshot.Unshared := by
  refine (runs_parts config h.unshared).mono ?_ fun _ ht => ht.unshared
  rintro (fault | opened) after ⟨scanned, hscanned, swept, outcome, -, hfinds, houtcome⟩ -
  · have htemporary : ∀ name ∈ leftovers start.snapshot.names.fileNames,
        FileName.isTemporary name = true := fun name => isTemporary_of_mem_leftovers
    have hfirst : Committed scanned recorded segments := by
      refine h.within hscanned.within (fun hmem => ?_) fun segment _ half hmem => ?_
      · exact FileName.ne_of_isTemporary (htemporary _ hmem) FileName.not_isTemporary_manifest rfl
      · exact FileName.ne_of_isTemporary (htemporary _ hmem) (FileName.not_isTemporary_segment _ _) rfl
    obtain ⟨rfl, hremoved⟩ := hfinds.committed hfirst
    have hsecond := hfirst.removed hremoved.within fun generation hmem => (mem_uncommitted.1 hmem).2
    -- Only the storing of the manifest is left to fail, and it takes back what it wrote.
    obtain ⟨hrestored, -⟩ := houtcome
    refine ⟨hsecond.within hrestored.within ?_ fun segment _ half => ?_,
      (hscanned.gains.trans hremoved.gains).trans hrestored.gains⟩
    · simp [FileName.temporary_manifest_ne_manifest.symm]
    · simp [(FileName.temporary_manifest_ne_segment _ _).symm]
  · trivial

namespace World

open Maintenance (Workspace Growth Spares)

variable {world : World} {ledger : Ledger} {engine : Engine} {limit : Nat}

/-- The directory was closed: it has the segments that are committed, and of replaced ones only those whose
files are still to be taken away. -/
structure Shut (limit : Nat) (world : World) : Prop where
  closed : ∀ engine, world.engine = some engine → engine.closed = true
  stored : ∃ recorded segments, Committed world.dir recorded segments ∧ recorded.toNat ≤ limit ∧
    Accounted segments world.replaced world.dir ∧ Spares world.replaced recorded segments

theorem Shut.unshared (h : Shut limit world) : world.dir.Unshared := by
  obtain ⟨recorded, segments, hcommitted, -⟩ := h.stored
  exact hcommitted.unshared

theorem Shut.mono {more : Nat} (h : Shut limit world) (hle : limit ≤ more) : Shut more world := by
  obtain ⟨recorded, segments, hcommitted, hrecorded, hrest⟩ := h.stored
  exact ⟨h.closed, recorded, segments, hcommitted, Nat.le_trans hrecorded hle, hrest⟩

theorem Shut.releaseFiles (h : Shut limit world) : Shut limit world.releaseFiles := by
  obtain ⟨recorded, segments, hcommitted, hrecorded, haccounted, hspares⟩ := h.stored
  obtain ⟨released, hreleased, hreplaced, hremoved⟩ := releaseFiles_removed hcommitted.unshared
  have hunheld := releaseFiles_unheld hcommitted.unshared
  refine ⟨h.closed, recorded, segments, hcommitted.removed hremoved.within fun generation hmem => ?_,
    hrecorded, ?_, hspares.subset hreplaced⟩
  · obtain ⟨handle, hhandle, rfl⟩ := List.mem_map.1 hmem
    exact (hspares handle (hreleased hhandle)).2
  · rw [replaced_releaseFiles]
    exact haccounted.released hunheld.gains (.of_removed hunheld)

/-- Without an open engine an event that opens none changes the cursors, lets go of the engine, or puts a
directory where no file is. -/
theorem act_when_closed (hclosed : ∀ engine, world.engine = some engine → engine.closed = true)
    (hu : world.dir.Unshared) {event : Event} (hload : ∀ config, event ≠ .load config) :
    (∃ cursors, (world.act event).2 = { world with cursors }) ∨
      (world.act event).2 = { world with engine := none } ∨
      ∃ names, SameFiles world.dir { world.dir with names } ∧
        (world.act event).2 = { world with dir := { world.dir with names } } := by
  have hsame : (world.act event).2 = world → ∃ cursors, (world.act event).2 = { world with cursors } :=
    fun h => ⟨world.cursors, h⟩
  have hreading : event.isReading = true → ∃ cursors, (world.act event).2 = { world with cursors } :=
    act_reading world
  have hchange : ∀ changed : Except OsError Directory,
      (∀ names, changed = .ok names → SameFiles world.dir { world.dir with names }) →
      (∃ cursors, (world.change changed).2 = { world with cursors }) ∨
        (world.change changed).2 = { world with engine := none } ∨
        ∃ names, SameFiles world.dir { world.dir with names } ∧
          (world.change changed).2 = { world with dir := { world.dir with names } } := by
    intro changed hfiles
    cases changed with
    | error cause => exact .inl ⟨world.cursors, rfl⟩
    | ok names => exact .inr (.inr ⟨names, hfiles names rfl, rfl⟩)
  cases event with
  | load config => exact absurd rfl (hload config)
  | upsert entry =>
    refine .inl (hsame ?_)
    cases hengine : world.engine with
    | none => rw [act, ask, hengine]
    | some engine =>
      rw [act, ask, hengine]
      dsimp only
      rw [Engine.upsert, if_pos (hclosed engine hengine)]
      rfl
  | flush => exact .inl (hsame (act_closed hclosed rfl).1)
  | compact => exact .inl (hsame (act_closed hclosed rfl).1)
  | close => exact .inl (hsame (act_closed hclosed rfl).1)
  | drop =>
    refine .inr (.inl ?_)
    have hclose : (world.act .close).2 = world := (act_closed hclosed rfl).1
    show { (world.act .close).2 with engine := none } = { world with engine := none }
    rw [hclose]
  | crash => exact .inr (.inl rfl)
  | block name => exact hchange _ fun names hnames => .makeFolder hu hnames
  | unblock name => exact hchange _ fun names hnames => .removeFolder hu hnames
  | _ => exact .inl (hreading rfl)

/-- **An event that opens nothing** leaves a directory that was closed as it is. -/
theorem Shut.act (h : Shut limit world) {event : Event} (hload : ∀ config, event ≠ .load config) :
    Shut limit (world.act event).2 := by
  rcases act_when_closed h.closed h.unshared hload with ⟨cursors, heq⟩ | heq | ⟨names, hsame, heq⟩
  · rw [heq]
    exact ⟨h.closed, h.stored⟩
  · rw [heq]
    exact ⟨fun engine hengine => (nomatch hengine), h.stored⟩
  · rw [heq]
    obtain ⟨recorded, segments, hcommitted, hrecorded, haccounted, hspares⟩ := h.stored
    exact ⟨h.closed, recorded, segments, hcommitted.of_sameFiles hsame, hrecorded,
      haccounted.of_sameFiles hsame, hspares⟩

/-- So does **an opening that fails**. -/
theorem Shut.load (h : Shut limit world) {config : Config} {fault : StepFault}
    (hfails : (world.act (.load config)).1 = .error fault) : Shut limit (world.act (.load config)).2 := by
  obtain ⟨recorded, segments, hcommitted, hrecorded, haccounted, hspares⟩ := h.stored
  have hdiscard : world.discard = { world with engine := none } := by
    have hclose : (world.act .close).2 = world := (act_closed h.closed rfl).1
    show { (world.act .close).2 with engine := none } = { world with engine := none }
    rw [hclose]
  have hcommitted' : Committed (Disk.ofSnapshot world.dir).snapshot recorded segments := hcommitted
  obtain ⟨hpost, -⟩ := (Manager.runs_refused config hcommitted').apply (Disk.plain_ofSnapshot world.dir)
  rw [World.act, hdiscard, World.load] at hfails ⊢
  dsimp only at hfails ⊢
  split
  · next error disk hrun =>
    rw [hrun] at hpost
    obtain ⟨hleft, hgains⟩ := hpost
    refine ⟨?_, recorded, segments, hleft, hrecorded, ?_, hspares⟩
    · rintro engine ⟨⟩
    · exact haccounted.grown (hgains.mono (List.nil_subset _)) (List.Subset.refl _)
  · next manager opened disk hrun =>
    rw [hrun] at hfails
    cases hfails

theorem Shut.step (h : Shut limit world) {event : Event}
    (hload : ∀ config answer, event = .load config → (world.step event).1 ≠ .ok answer) :
    Shut limit (world.step event).2 := by
  rw [step_eq]
  refine Shut.releaseFiles ?_
  by_cases hother : ∃ config, event = .load config
  · obtain ⟨config, rfl⟩ := hother
    cases hanswer : (world.act (.load config)).1 with
    | ok answer =>
      refine absurd ?_ (hload config answer rfl)
      rw [step_eq, hanswer]
    | error fault => exact h.load hanswer
  · exact h.act fun config heq => hother ⟨config, heq⟩

theorem Shut.run (h : Shut limit world) {events : List Event}
    (hload : ∀ config answer, (Event.load config, .ok answer) ∉ (world.run events).1) :
    Shut limit (world.run events).2 := by
  induction events generalizing world with
  | nil => exact h
  | cons event rest ih =>
    refine ih (h.step fun config answer heq hanswer => ?_) fun config answer hmem => ?_
    · refine hload config answer ?_
      rw [World.run, ← heq, ← hanswer]
      exact List.mem_cons_self
    · exact hload config answer (List.mem_cons_of_mem _ hmem)

/-- **A closing that succeeds** leaves the segments of the engine, and nothing unaccounted for. -/
theorem Using.shut (h : Using world ledger engine) (haccounts : Accounts world) {answer : Answer}
    (hok : (world.act .close).1 = .ok answer)
    (hroom : (ledger.note world .close).handedOut < UInt64.size - 1) :
    Shut ((ledger.note world .close).handedOut + 1) (world.act .close).2 := by
  have hruns : Runs _ (world.workspace engine) _ _ :=
    Maintenance.runs_close h.opened h.unshared h.sound
  obtain ⟨hpost, -⟩ := hruns.apply (Disk.plain_ofSnapshot world.dir)
  rw [note_handedOut] at hroom ⊢
  have hspent := h.handsOut_close (Nat.lt_of_le_of_lt (Nat.le_add_right _ _) hroom)
  rw [hspent] at hroom ⊢
  rw [act, maintain_eq _ h.present] at hok ⊢
  cases hresult : (Maintenance.close.run.run (world.workspace engine)).1 with
  | error error =>
    rw [hresult] at hok
    cases hok
  | ok value =>
    rw [hresult] at hpost
    obtain ⟨last, hgrowth, hlast⟩ := hpost
    have husing : Using { world.after last with replaced := world.replaced }
        { ledger with handedOut := ledger.handedOut + Maintenance.flushed (world.workspace engine) }
        last.engine :=
      h.progress hgrowth.toProgress hroom (h.keeps_after hgrowth.toProgress hroom) (.inl rfl)
    obtain ⟨recorded, hkept, hspares⟩ := husing.kept
    have hrecorded := Nat.le_trans (UInt64.le_iff_toNat_le.1 hkept.recorded_le) husing.next_le
    have haccounted : Accounted last.engine.live world.replaced last.snapshot :=
      (haccounts engine h.present h.opened).grown hgrowth.gains
        (List.map_subset _ hgrowth.older.subset)
    dsimp only
    rw [hlast]
    refine ⟨fun engine' hengine => ?_, recorded, last.engine.live, hkept.committed, hrecorded,
      haccounted, hspares⟩
    cases hengine
    rfl

/-- An engine that was just opened is open. -/
theorem opened_of_load {config : Config} (h : (world.act (.load config)).2.engine = some engine) :
    engine.closed = false := by
  rw [act, load] at h
  split at h
  · cases h
  · cases h
    rfl

/-- **An engine that was closed** has left the directory shut, however long ago. -/
theorem Reached.shut (h : Reached world ledger) (hroom : ledger.handedOut < UInt64.size - 1)
    (hengine : world.engine = some engine) (hclosed : engine.closed = true) :
    Shut (ledger.handedOut + 1) world := by
  induction h with
  | start => cases hengine
  | @step world ledger h event ih =>
    have hmore := hroom
    rw [note_handedOut] at hmore
    have hbefore : ledger.handedOut < UInt64.size - 1 :=
      Nat.lt_of_le_of_lt (Nat.le_add_right _ _) hmore
    rw [step_eq, releaseFiles_engine] at hengine
    have hload : ∀ config, event ≠ .load config := by
      rintro config rfl
      rw [opened_of_load hengine] at hclosed
      cases hclosed
    have hopen : ∀ {base writes}, ¬ Serving base writes (world.act event).2 := by
      rintro base writes hserving
      obtain ⟨engine', -, hpresent, hopened, -⟩ := hserving.serves
      cases hpresent.symm.trans hengine
      rw [hopened] at hclosed
      cases hclosed
    rcases h.consistent hbefore with ⟨used, husing⟩ | hidle
    · -- Only a closing that succeeds ends the use of an open engine and keeps the engine.
      by_cases hclose : event = .close
      · subst hclose
        rcases husing.serving.close with ⟨hanswer, -⟩ | ⟨-, hserving⟩
        · rw [step_eq]
          exact (husing.shut (h.accounts hbefore) hanswer hroom).releaseFiles
        · exact absurd hserving hopen
      · cases huse : event.isUse with
        | true => exact absurd (husing.serving.act huse hclose) hopen
        | false =>
          cases event with
          | load config => exact absurd rfl (hload config)
          | drop => cases hengine
          | crash => cases hengine
          | _ => cases huse
    · have hshut : world.engine = some engine → Shut (ledger.handedOut + 1) world := fun hpresent =>
        ih hbefore hpresent
      have hpresent : world.engine = some engine := by
        rcases act_when_closed (fun engine hengine => (hidle.closed engine hengine).1) hidle.unshared
          hload with ⟨cursors, heq⟩ | heq | ⟨names, -, heq⟩
        · rw [heq] at hengine
          exact hengine
        · rw [heq] at hengine
          cases hengine
        · rw [heq] at hengine
          exact hengine
      refine (Shut.mono (hshut hpresent) ?_).step fun config _ heq => absurd heq (hload config)
      rw [note_handedOut]
      omega

/-- **A closing that succeeds** has left the directory shut, now or before. -/
theorem Reached.shut_of_close (h : Reached world ledger) {answer : Answer}
    (hclose : (world.step .close).1 = .ok answer)
    (hroom : (ledger.note world .close).handedOut < UInt64.size - 1) :
    Shut ((ledger.note world .close).handedOut + 1) (world.step .close).2 := by
  have hpresent : ∃ engine, world.engine = some engine := by
    cases hengine : world.engine with
    | none =>
      rw [step_eq, act, maintain_none _ hengine] at hclose
      cases hclose
    | some engine => exact ⟨engine, rfl⟩
  have hbefore : ledger.handedOut < UInt64.size - 1 := by
    rw [note_handedOut] at hroom
    exact Nat.lt_of_le_of_lt (Nat.le_add_right _ _) hroom
  obtain ⟨engine, hengine⟩ := hpresent
  rcases h.consistent hbefore with ⟨used, husing⟩ | hidle
  · rw [step_eq] at hclose ⊢
    exact (husing.shut (h.accounts hbefore) hclose hroom).releaseFiles
  · refine Shut.step (Shut.mono (h.shut hbefore hengine (hidle.closed engine hengine).1) ?_) ?_
    · rw [note_handedOut]
      omega
    · rintro _ _ ⟨⟩

/-! ## With and without the manifest -/

/-- Both directories open, as engines with segments of the same generations and entries, newest first, that
answer every lookup and every range alike. What the second one hands out next is past all of them. -/
def OpensAlike (config : Config) (s t : Snapshot) : Prop :=
  ∃ answer opened engine answer' opened' engine',
    (ofDir s).step (.load config) = (.ok answer, opened) ∧ opened.engine = some engine ∧
    (ofDir t).step (.load config) = (.ok answer', opened') ∧ opened'.engine = some engine' ∧
    engine'.live.map (fun segment => (segment.generation, segment.entries)) =
      engine.live.map (fun segment => (segment.generation, segment.entries)) ∧
    (∀ key, ∃ value, (opened.step (.lookup key)).1 = .ok (.value value) ∧
      (opened'.step (.lookup key)).1 = .ok (.value value)) ∧
    (∀ bounds, ∃ entries, (opened.step (.range bounds)).1 = .ok (.entries entries) ∧
      (opened'.step (.range bounds)).1 = .ok (.entries entries)) ∧
    ∀ segment ∈ engine.live, segment.generation < engine'.manager.next

theorem Serving.alike {base : Content} {opened opened' : World} (h : Serving base [] opened)
    (h' : Serving base [] opened') :
    (∀ key, ∃ value, (opened.step (.lookup key)).1 = .ok (.value value) ∧
      (opened'.step (.lookup key)).1 = .ok (.value value)) ∧
    ∀ bounds, ∃ entries, (opened.step (.range bounds)).1 = .ok (.entries entries) ∧
      (opened'.step (.range bounds)).1 = .ok (.entries entries) := by
  refine ⟨fun key => ⟨_, h.lookup key, h'.lookup key⟩, fun bounds => ?_⟩
  obtain ⟨entries, hentries, hlists⟩ := h.range bounds
  obtain ⟨entries', hentries', hlists'⟩ := h'.range bounds
  exact ⟨entries, hentries, hlists.unique hlists' ▸ hentries'⟩

/-- An opening that succeeds in a directory that nothing else uses begins the service. -/
theorem step_load_of_opening {config : Config} {dir after : Snapshot} {manager : Manager}
    {segments : List Segment} (hopens : Manager.opening config dir = (.ok (manager, segments), after))
    (hu : after.Unshared) (hasc : ∀ segment ∈ segments, Ascending segment.entries) :
    ∃ answer opened engine, (ofDir dir).step (.load config) = (.ok answer, opened) ∧
      opened.engine = some engine ∧ engine.live = segments ∧ engine.manager = manager ∧
      Serving (Content.ofSegments segments) [] opened := by
  let opened : World := { ofDir dir with
    dir := after
    memory := (Engine.ofSegments .empty config manager segments).2
    engine := some (Engine.ofSegments .empty config manager segments).1 }
  have hserving : Serving (Content.ofSegments segments) [] opened :=
    ⟨hu, _, 0, rfl, rfl, Engine.lays_ofSegments .empty config manager hasc⟩
  obtain ⟨hresult, rfl⟩ := Prod.mk.inj hopens
  refine ⟨.engine (Engine.ofSegments .empty config manager segments).1.generations manager.next,
    opened.releaseFiles, (Engine.ofSegments .empty config manager segments).1, ?_, rfl,
    Memory.segment_adoptAll _ _ _, rfl, hserving.releaseFiles⟩
  rw [step_eq, act, discard_none rfl, load]
  cases hrun : (Manager.recover config).run.run (.ofSnapshot (ofDir dir).dir) with
  | mk result disk =>
    have hrun' : (Manager.recover config).run.run (.ofSnapshot dir) = (result, disk) := hrun
    rw [hrun'] at hresult
    dsimp only at hresult
    subst hresult
    simp only [opened, hrun']
    rfl

/-- Without its manifest a directory that was closed opens with the same content. -/
theorem Shut.opensAlike (h : Shut limit world) (hpos : 0 < limit) (hlimit : limit < UInt64.size)
    (hnone : world.replaced = []) (hfree : ¬ Blocked world.dir) (config : Config) {names : Directory}
    (hunlink : world.dir.names.unlink FileName.manifest = .ok names) :
    OpensAlike config world.dir { world.dir with names } := by
  obtain ⟨recorded, segments, hcommitted, hrecorded, haccounted, -⟩ := h.stored
  rw [hnone] at haccounted
  have hclean : Clean segments world.dir := by
    intro name bytes hfile
    rcases haccounted name bytes hfile with hmanifest | hlive | hreplaced
    · exact .inl hmanifest
    · exact .inr (mem_filesOf.1 hlive)
    · cases hreplaced
  have hasc : ∀ segment ∈ segments, Ascending segment.entries := fun segment hmem =>
    (hcommitted.stored segment hmem).ascending
  obtain ⟨bytes, -, hmanifest⟩ := hcommitted.written
  -- By the manifest the committed segments are found as they are.
  have hstart : Recoverable recorded segments (ofDir world.dir).dir := .inl hcommitted
  rcases load_opened config hstart ((hclean.tidy hcommitted.below).mono hrecorded) hrecorded hpos hlimit with
    ⟨answer, opened, engine, hload, hopened, -⟩ | ⟨-, -, -, -, -, hblocked | hblocked⟩
  · have hstep : (ofDir world.dir).step (.load config) = (.ok answer, opened.releaseFiles) := by
      rw [step_eq, World.act, discard_none rfl, hload]
    -- By name they are found with the same entries.
    have hremoved := Snapshot.removed_of_unlink hcommitted.unshared hunlink
    obtain ⟨manager, after, hopens, hdiscovers, hafter⟩ :=
      hcommitted.discovers haccounted hremoved hfree config
    have hasc' : ∀ segment ∈ segments.map (Segment.byName config.verifyChecksums),
        Ascending segment.entries := by
      intro segment hmem
      obtain ⟨segment', hmem', rfl⟩ := List.mem_map.1 hmem
      rw [Segment.entries_byName]
      exact hasc segment' hmem'
    obtain ⟨answer', opened', engine', hstep', hpresent, hlive, hmanager, hserving⟩ :=
      step_load_of_opening hopens hafter hasc'
    rw [Content.ofSegments_byName hasc] at hserving
    obtain ⟨hlookups, hranges⟩ := hopened.serving.releaseFiles.alike hserving
    refine ⟨answer, opened.releaseFiles, engine, answer', opened', engine', hstep, hopened.present, hstep',
      hpresent, ?_, hlookups, hranges, fun segment hmem => ?_⟩
    · rw [hlive, hopened.live, List.map_map]
      exact List.map_congr_left fun segment _ => by simp
    · -- Its files are found, and what is handed out next is past all that is found.
      rw [hopened.live] at hmem
      have hfound : ∀ generation ∈ Manager.generations (Manager.found names.fileNames),
          ∃ segment ∈ segments, segment.generation = generation := by
        rw [hcommitted.generations_found haccounted hremoved]
        intro generation hgeneration
        obtain ⟨segment, hsegment, heq⟩ := List.mem_map.1 hgeneration
        exact ⟨segment, List.mem_reverse.1 hsegment, heq⟩
      have hlow : ∀ generation ∈ Manager.generations (Manager.found names.fileNames),
          generation.toNat < UInt64.size - 1 := by
        intro generation hgeneration
        obtain ⟨segment, hsegment, rfl⟩ := hfound generation hgeneration
        have := UInt64.lt_iff_toNat_lt.1 (hcommitted.below segment hsegment)
        omega
      have hmem' : segment.generation ∈ Manager.generations (Manager.found names.fileNames) :=
        Manager.mem_generations.2 ⟨.data, hcommitted.mem_found hremoved hmem .data⟩
      have hpast := (Manager.resumed_isGreatest 0 hlow).2 (.inr (.inr ⟨_, hmem', rfl⟩))
      rw [hmanager, hdiscovers.manager_eq, UInt64.lt_iff_toNat_lt]
      exact hpast
  · exact absurd hblocked hfree
  · exact absurd (hmanifest.symm.trans hblocked) (by simp)

/-- **Discovery agrees with the manifest.** After any events in a directory that was empty at the start, the
last engine of which was closed with success: as long as no cursor holds a replaced segment and no directory
stands in the way of a new manifest, the manifest can be taken away, and the directory opens without it as
it does with it. It has segments of the same generations in the same order with the same entries, so each
lookup and each range answers the same, and generations are handed out past all of them. -/
theorem discovery_agrees (h : Reached world ledger) {answer : Answer}
    (hclose : (world.step .close).1 = .ok answer)
    (hroom : (ledger.note world .close).handedOut < UInt64.size - 1) {events : List Event}
    (hlast : ∀ config answer, (Event.load config, .ok answer) ∉ ((world.step .close).2.run events).1)
    {last : World} (hrun : ((world.step .close).2.run events).2 = last)
    (hcursors : ∀ handle ∈ last.replaced, last.isHeld handle = false) (hfree : ¬ Blocked last.dir)
    (config : Config) : ∃ names, last.dir.names.unlink FileName.manifest = .ok names ∧
      OpensAlike config last.dir { last.dir with names } := by
  have hshut : Shut _ last := hrun ▸ (h.shut_of_close hclose hroom).run hlast
  -- What is still to be taken away is held by a cursor, so there is nothing of that kind.
  have hreached : Reached last _ := hrun ▸ (h.step .close).run events
  have hnone : last.replaced = [] := by
    refine List.eq_nil_iff_forall_not_mem.2 fun handle hmem => ?_
    have hheld := hreached.held handle hmem
    rw [hcursors handle hmem] at hheld
    cases hheld
  obtain ⟨recorded, segments, hcommitted, -⟩ := hshut.stored
  obtain ⟨bytes, -, hfile⟩ := hcommitted.written
  obtain ⟨names, hunlink, -⟩ := Snapshot.unlink_of_file hcommitted.unshared hfile
  exact ⟨names, hunlink, hshut.opensAlike (Nat.succ_pos _) (by omega) hnone hfree config hunlink⟩

/-- A compaction while a cursor holds the segment that it replaces, and a write after it. -/
def superseded : List Event :=
  [.load {}, .upsert (.put [1] [7]), .flush, .cursor "c" .all, .upsert (.put [2] [8]), .compact,
    .upsert (.tombstone [1])]

/-- The world after that, once the engine is closed and the cursor let go. -/
def vacated : World := (((World.empty.run superseded).2.step .close).2.run [.release "c"]).2

/-- Only the files of two segments are left then, and they tell what the manifest tells. -/
theorem discovery_agrees_vacated : ∃ answer names,
    ((World.empty.run superseded).2.step .close).1 = .ok answer ∧
      vacated.dir.names.fileNames = ["MANIFEST", "segment_000003.index", "segment_000003.data",
        "segment_000002.index", "segment_000002.data"] ∧
      vacated.dir.names.unlink FileName.manifest = .ok names ∧
      OpensAlike {} vacated.dir { vacated.dir with names } := by
  have hreached : Reached (World.empty.run superseded).2 (Ledger.empty.noteAll .empty superseded) :=
    Reached.start.run superseded
  obtain ⟨answer, hclose⟩ :=
    exists_of_isOk (by decide +kernel : ((World.empty.run superseded).2.step .close).1.isOk = true)
  have hroom : ((Ledger.empty.noteAll .empty superseded).note (World.empty.run superseded).2
      .close).handedOut < UInt64.size - 1 := by
    decide +kernel
  obtain ⟨hreleased, hfree, hfiles⟩ : vacated.replaced.length = 0 ∧
      vacated.dir.holding (FileName.temporary FileName.manifest) ≠ .folder ∧
      vacated.dir.names.fileNames = ["MANIFEST", "segment_000003.index", "segment_000003.data",
        "segment_000002.index", "segment_000002.data"] := by
    decide +kernel
  have hlast : ∀ config answer, (Event.load config, .ok answer) ∉
      (((World.empty.run superseded).2.step .close).2.run [.release "c"]).1 := by
    intro config answer hmem
    have hevent := List.mem_map_of_mem (f := Prod.fst) hmem
    rw [run_events] at hevent
    simp at hevent
  obtain ⟨names, hunlink, halike⟩ := discovery_agrees hreached hclose hroom hlast
    (rfl : _ = vacated) (fun handle hmem => by
      rw [List.length_eq_zero_iff.1 hreleased] at hmem
      cases hmem) hfree {}
  exact ⟨answer, names, hclose, hfiles, hunlink, halike⟩

end World

end LsmTree
