import LsmTree.Proofs.Leftovers
import LsmTree.Proofs.ManagerRuns

/-!
# The list committed last

A manager may commit its segments in any order, leave some out and take them in again, while generations
are handed out for segments that come to nothing and commits fail. What the directory is opened to is the
manifest's word alone:

* **`Lists.runs_recover`** — an opening returns what the manifest lists, as it lists it;
* **`Keeps`** — a directory in which the list committed last is still to be had;
* **`Store.Consistent`** — that, and a manager with segments that it may commit;
* **`Store.build_spec`**, **`Store.commit_spec`** — what the steps of the manager do to the directory;
* **`Store.Consistent.step`**, **`Store.Reached.consistent`** — so every event leaves a store consistent;
* **`Store.reopens_last_commit`** — and an opening returns the list committed last.
-/

namespace LsmTree

open Snapshot (Within SameFiles)

variable {s t : Snapshot} {next : UInt64} {segments : List Segment} {limit : Nat}

/-- The manifest that is written for a list of segments, newest first. -/
abbrev Manifest.ofSegments (next : UInt64) (segments : List Segment) : Manifest :=
  .current next (segments.reverse.map Segment.info)

/-! ## What a manifest lists, opened -/

theorem mem_ofSegments {recorded : SegmentMeta} :
    recorded ∈ (Manifest.ofSegments next segments).segments ↔
      ∃ segment ∈ segments, segment.info = recorded := by
  simp [Manifest.current]

/-- The names of the segments listed are not stray. -/
theorem not_stray_segment {segment : Segment} (hmem : segment ∈ segments) (half : Half) :
    ¬ Manager.Stray (.ofSegments next segments) (FileName.segment half segment.generation) := by
  have hkept : ¬ Manager.Stray (.ofSegments next segments)
      (FileName.segment half segment.info.generation) :=
    Manager.not_stray_listed (mem_ofSegments.2 ⟨segment, hmem, rfl⟩)
  exact hkept

theorem not_stray_manifest {manifest : Manifest} : ¬ Manager.Stray manifest FileName.manifest :=
  fun h => h.ne_manifest rfl

/-- Names that the store gives and that are not stray are those of the segments listed. -/
theorem Known.listed {name : String} (h : Known limit name) (hmanifest : name ≠ FileName.manifest)
    (hstray : ¬ Manager.Stray (.ofSegments next segments) name) :
    ∃ segment ∈ segments, ∃ half, name = FileName.segment half segment.generation := by
  rcases h with rfl | rfl | ⟨generation, -, hmem⟩
  · exact absurd rfl hmanifest
  · exact absurd (.inl FileName.isTemporary_temporary_manifest) hstray
  · obtain ⟨half, rfl | rfl⟩ := FileName.mem_ofGeneration.1 hmem
    · refine Classical.byContradiction fun hnone => hstray (.inr ⟨half, generation, rfl, ?_⟩)
      rintro recorded hrecorded rfl
      obtain ⟨segment, hsegment, rfl⟩ := mem_ofSegments.1 hrecorded
      exact hnone ⟨segment, hsegment, half, rfl⟩
    · exact absurd (.inl (FileName.isTemporary_temporary_segment _ _)) hstray

/-- A directory that was swept has only files that it had before, and none under stray names. -/
theorem Manager.Swept.file {manifest : Manifest} {name : String} {bytes : Bytes}
    (h : Swept manifest s t) (hfile : t.holding name = .file bytes) :
    ¬ Stray manifest name ∧ s.holding name = .file bytes := by
  have hstray : ¬ Stray manifest name := by
    intro hstray
    rw [h.stray name hstray] at hfile
    exact Holding.withoutFile_ne_file hfile
  rw [h.same name hstray] at hfile
  exact ⟨hstray, hfile⟩

theorem Stored.beside_manifest {segment : Segment} (h : Stored s segment)
    (hwithin : Within [FileName.manifest, FileName.temporary FileName.manifest] s t) :
    Stored t segment := by
  refine h.within hwithin fun half => ?_
  simp [FileName.segment_ne_manifest, (FileName.temporary_manifest_ne_segment _ _).symm]

theorem Tidy.beside_manifest (h : Tidy limit s)
    (hwithin : Within [FileName.manifest, FileName.temporary FileName.manifest] s t) : Tidy limit t := by
  refine h.within hwithin fun name hname => ?_
  rcases List.mem_cons.1 hname with rfl | hname
  · exact .inl rfl
  · exact .inr (.inl (List.mem_singleton.1 hname))

/-- A manifest that was not put in place leaves what is listed. -/
theorem Lists.within_temporary (h : Lists s next segments)
    (hwithin : Within [FileName.temporary FileName.manifest] s t) : Lists t next segments := by
  refine h.within hwithin ?_ fun segment _ half => ?_
  · simpa using FileName.temporary_manifest_ne_manifest.symm
  · simpa using (FileName.temporary_manifest_ne_segment _ _).symm

theorem Lists.swept (h : Lists s next segments)
    (hswept : Manager.Swept (.ofSegments next segments) s t) (hu : t.Unshared) :
    Lists t next segments := by
  obtain ⟨bytes, hencode, hwritten⟩ := h.written
  refine ⟨hu, ⟨bytes, hencode, ?_⟩, fun segment hmem => ?_, h.below⟩
  · rw [hswept.same _ not_stray_manifest, hwritten]
  · exact (h.stored segment hmem).of_same fun half => hswept.same _ (not_stray_segment hmem half)

/-- **An opening** of a directory whose manifest lists segments that are there returns these, unless a
directory is where the manifest is to be written; then what is listed is still there. -/
theorem Lists.runs_recover {start : Disk} (config : Config) (h : Lists start.snapshot next segments)
    (htidy : Tidy limit start.snapshot) :
    Runs (Manager.recover config).run start
      (fun result after => match result with
        | .ok (manager, opened) => opened = segments ∧ after.snapshot.Unshared ∧
            Manager.Sweeps config (.ofSegments next segments) start.snapshot manager segments
              after.snapshot
        | .error _ => start.snapshot.holding (FileName.temporary FileName.manifest) = .folder ∧
            Lists after.snapshot next segments ∧ Tidy limit after.snapshot)
      Snapshot.Unshared := by
  obtain ⟨bytes, hencode, hwritten⟩ := h.written
  have hdecode : Manifest.decode bytes = .ok (.ofSegments next segments) :=
    Manifest.decode_encode hencode rfl
  have hloaded : Manager.listed start.snapshot.holding config.verifyChecksums
      (Manifest.ofSegments next segments).segments = .ok segments.reverse :=
    Manager.listed_of_stored (fun segment hmem => h.stored segment (List.mem_reverse.1 hmem)) _
  refine (Manager.runs_parts config h.unshared).withCrash.mono ?_ fun _ ht => ht.unshared
  rintro result after ⟨⟨scanned, hscanned, swept, outcome, hu, hfinds, houtcome⟩, hcrash⟩ -
  obtain ⟨hfound, hswept⟩ := hfinds.swept hscanned hwritten hdecode
  rw [hloaded] at hfound
  subst hfound
  replace hswept := hswept _ rfl
  cases result with
  | ok opened =>
    obtain ⟨manager, opened⟩ := opened
    obtain ⟨rfl, rfl, hinstalled⟩ := houtcome
    rw [List.reverse_reverse] at hinstalled ⊢
    exact ⟨rfl, hinstalled.unshared, hswept.sweeps hloaded hinstalled⟩
  | error error =>
    obtain ⟨hrestored, hreason⟩ := houtcome
    refine ⟨?_, ?_, ?_⟩
    · rcases hreason with ⟨error, hrefused⟩ | hfolder | hfolder
      · obtain ⟨bytes', hencode'⟩ := Manifest.encode_current hencode
          (Manager.resumed (Manager.found start.snapshot.names.fileNames) next)
        rw [List.reverse_reverse] at hrefused
        cases hencode'.symm.trans hrefused
      · exact hswept.folder_iff.1 hfolder
      · rw [hswept.same _ not_stray_manifest, hwritten] at hfolder
        cases hfolder
    · exact (h.swept hswept hu).within_temporary hrestored.within
    · intro name bytes hfile
      rcases hrestored.same name with hsame | ⟨hname, -⟩
      · rw [hsame] at hfile
        exact htidy name bytes (hswept.file hfile).2
      · exact .inr (.inl (List.mem_singleton.1 hname))

/-! ## After an opening -/

section Opened

variable {config : Config} {manager : Manager}

theorem Manager.Sweeps.clean (h : Manager.Sweeps config (.ofSegments next segments) s manager segments t)
    (htidy : Tidy limit s) : Clean segments t := by
  intro name bytes hfile
  by_cases hmanifest : name = FileName.manifest
  · exact .inl hmanifest
  have hstray : ¬ Manager.Stray (.ofSegments next segments) name := by
    intro hstray
    rw [h.stray name hstray] at hfile
    exact Holding.withoutFile_ne_file hfile
  rw [h.same name hstray hmanifest] at hfile
  exact .inr ((htidy name bytes hfile).listed hmanifest hstray)

theorem Manager.Sweeps.le_next (h : Manager.Sweeps config (.ofSegments next segments) s manager segments t) :
    next ≤ manager.next := by
  rw [h.manager_eq]
  exact Manager.le_resumed _ _

theorem Lists.swept_anew (h : Lists s next segments) (hu : t.Unshared)
    (hsweeps : Manager.Sweeps config (.ofSegments next segments) s manager segments t) :
    Lists t manager.next segments where
  unshared := hu
  written := hsweeps.written
  stored segment hmem := (h.stored segment hmem).of_same fun half =>
    hsweeps.same _ (not_stray_segment hmem half) (FileName.segment_ne_manifest _ _)
  below segment hmem := UInt64.lt_of_lt_of_le (h.below segment hmem) hsweeps.le_next

/-- In a tidy directory an opening resumes past every generation found, and within what was handed out. -/
theorem Manager.Sweeps.next_bounds
    (h : Manager.Sweeps config (.ofSegments next segments) s manager segments t) (htidy : Tidy limit s)
    (hnext : next.toNat ≤ limit) (hpos : 0 < limit) (hlimit : limit < UInt64.size) :
    manager.next.toNat ≤ limit ∧
      ∀ generation ∈ Manager.generations (Manager.found s.names.fileNames),
        generation < manager.next := by
  have hlow : ∀ generation ∈ Manager.generations (Manager.found s.names.fileNames),
      generation.toNat < limit := fun generation hmem => Manager.lt_of_mem_generations htidy hmem
  have hgreatest := Manager.resumed_isGreatest next fun generation hmem =>
    Nat.lt_of_lt_of_le (hlow generation hmem) (Nat.le_sub_one_of_lt hlimit)
  rw [h.manager_eq]
  refine ⟨Manager.resumed_le hnext hpos hlimit hlow, fun generation hmem => ?_⟩
  exact UInt64.lt_iff_toNat_lt.2 (hgreatest.2 (.inr (.inr ⟨generation, hmem, rfl⟩)))

end Opened

/-! ## The list committed last -/

open Store (Commit Ledger Reached)

/-- A directory in which the list committed last is listed by the manifest, with a next generation that
was not handed out before; before the first commit there are no segments to be found. -/
structure Keeps (s : Snapshot) (last : Option Commit) (limit : Nat) : Prop where
  tidy : Tidy limit s
  fresh : last = none → Recoverable 0 [] s
  lists : ∀ commit, last = some commit → Lists s commit.next commit.segments ∧ commit.next.toNat ≤ limit

namespace Keeps

variable {last : Option Commit}

theorem unshared (h : Keeps s last limit) : s.Unshared := by
  cases last with
  | none => exact (h.fresh rfl).unshared
  | some commit => exact (h.lists commit rfl).1.unshared

theorem of_lists {commit : Commit} (h : Lists s commit.next commit.segments) (htidy : Tidy limit s)
    (hle : commit.next.toNat ≤ limit) : Keeps s (some commit) limit where
  tidy := htidy
  fresh hlast := by cases hlast
  lists commit' hlast := by
    cases hlast
    exact ⟨h, hle⟩

theorem of_sameFiles (h : Keeps s last limit) (hsame : SameFiles s t) : Keeps t last limit :=
  ⟨h.tidy.of_sameFiles hsame, fun hlast => (h.fresh hlast).of_sameFiles hsame, fun commit hlast =>
    ⟨(h.lists commit hlast).1.of_sameFiles hsame, (h.lists commit hlast).2⟩⟩

/-- **An opening** commits to what it returns, or leaves the list committed last. -/
theorem runs_recover {start : Disk} (config : Config) (h : Keeps start.snapshot last limit)
    (hpos : 0 < limit) (hlimit : limit < UInt64.size) :
    Runs (Manager.recover config).run start
      (fun result after => match result with
        | .ok (manager, opened) => manager.next.toNat ≤ limit ∧
            Keeps after.snapshot (some ⟨opened, manager.next⟩) limit
        | .error _ => Keeps after.snapshot last limit)
      fun _ => True := by
  cases last with
  | none =>
    have hfirst := Manager.runs_recover config (h.fresh rfl) h.tidy (Nat.zero_le _) hpos hlimit
    refine hfirst.mono ?_ fun _ _ => trivial
    rintro (error | ⟨manager, opened⟩) after hpost -
    · obtain ⟨hrecoverable, htidy, -⟩ := hpost
      exact ⟨htidy, fun _ => hrecoverable, fun _ hlast => nomatch hlast⟩
    · obtain ⟨rfl, hnext, -, hkept, -⟩ := hpost
      exact ⟨hnext, .of_lists hkept.committed.lists (hkept.tidy.mono hnext) hnext⟩
  | some commit =>
    obtain ⟨hlists, hcommit⟩ := h.lists commit rfl
    refine (hlists.runs_recover config h.tidy).mono ?_ fun _ _ => trivial
    rintro (error | ⟨manager, opened⟩) after hpost -
    · obtain ⟨-, hlists', htidy⟩ := hpost
      exact .of_lists hlists' htidy hcommit
    · obtain ⟨rfl, hu, hsweeps⟩ := hpost
      obtain ⟨hnext, -⟩ := hsweeps.next_bounds h.tidy hcommit hpos hlimit
      have hlists' := hlists.swept_anew hu hsweeps
      exact ⟨hnext, .of_lists hlists' (((hsweeps.clean h.tidy).tidy hlists'.below).mono hnext) hnext⟩

end Keeps

namespace Store

variable {store : Store} {ledger : Ledger} {manager : Manager}

/-- A store in use: the list committed last is kept, the manager resumes past what it recorded, and the
segments that it may commit are stored. -/
structure Consistent (store : Store) (ledger : Ledger) : Prop where
  keeps : Keeps store.dir ledger.last (ledger.handedOut + 1)
  managed : ∀ manager, store.manager = some manager → manager.next.toNat ≤ ledger.handedOut + 1 ∧
    (∃ commit, ledger.last = some commit ∧ commit.next ≤ manager.next) ∧
    ∀ segment ∈ store.segments, Stored store.dir segment ∧ segment.generation < manager.next

theorem Consistent.start (contents : Contents) : Consistent ⟨⟨.empty, contents⟩, none, []⟩ .empty where
  keeps := by
    refine ⟨?_, fun _ => .inr ⟨rfl, rfl, Snapshot.unshared_of_empty _, ?_⟩, fun _ hlast => nomatch hlast⟩
    · intro name bytes hfile
      cases hfile
    · intro name bytes hfile
      cases hfile
  managed manager hmanager := by cases hmanager

/-! ## Events -/

theorem Consistent.of_sameFiles {dir : Snapshot} (h : Consistent store ledger)
    (hsame : SameFiles store.dir dir) : Consistent { store with dir } ledger where
  keeps := h.keeps.of_sameFiles hsame
  managed manager hmanager := by
    obtain ⟨hnext, hlast, hheld⟩ := h.managed manager hmanager
    exact ⟨hnext, hlast, fun segment hmem =>
      ⟨(hheld segment hmem).1.of_sameFiles hsame, (hheld segment hmem).2⟩⟩

/-- **Handing out a generation**, and storing at most a segment under its names, leaves the list committed
last and the segments held. -/
theorem Consistent.allocate {dir : Snapshot} {built : List Segment} (h : Consistent store ledger)
    (hmanager : store.manager = some manager) (hroom : ledger.handedOut + 1 < UInt64.size - 1)
    (hwithin : Within (FileName.ofGeneration manager.next) store.dir dir)
    (hbuilt : ∀ segment ∈ built, Stored dir segment ∧ segment.generation = manager.next) :
    Consistent ⟨dir, some { manager with next := manager.next + 1 }, store.segments ++ built⟩
      ⟨ledger.last, ledger.handedOut + 1⟩ := by
  obtain ⟨hnext, ⟨commit, hlast, hcommit⟩, hheld⟩ := h.managed manager hmanager
  obtain ⟨hlists, hle⟩ := h.keeps.lists commit hlast
  have hsucc : (manager.next + 1).toNat = manager.next.toNat + 1 := Kept.toNat_succ (by omega)
  have hlater : manager.next < manager.next + 1 := by
    rw [UInt64.lt_iff_toNat_lt, hsucc]
    exact Nat.lt_succ_self _
  have holder : ∀ {segment : Segment}, segment.generation < manager.next →
      ∀ half, FileName.segment half segment.generation ∉ FileName.ofGeneration manager.next := by
    intro segment hlt half hmem
    exact UInt64.ne_of_lt hlt (FileName.segment_mem_ofGeneration.1 hmem)
  constructor
  · have hlists' : Lists dir commit.next commit.segments :=
      hlists.within hwithin (FileName.manifest_not_mem_ofGeneration _) fun segment hmem =>
        holder (UInt64.lt_of_lt_of_le (hlists.below segment hmem) hcommit)
    rw [hlast]
    refine .of_lists hlists' ?_ (by dsimp only; omega)
    refine (h.keeps.tidy.mono (Nat.le_succ _)).within hwithin fun name hname => ?_
    exact .inr (.inr ⟨manager.next, by omega, hname⟩)
  · rintro _ ⟨⟩
    refine ⟨by rw [hsucc]; dsimp only; omega, ⟨commit, hlast,
      UInt64.le_of_lt (UInt64.lt_of_le_of_lt hcommit hlater)⟩, fun segment hmem => ?_⟩
    rcases List.mem_append.1 hmem with hold | hnew
    · obtain ⟨hstored, hlt⟩ := hheld segment hold
      exact ⟨hstored.within hwithin (holder hlt), UInt64.lt_trans hlt hlater⟩
    · obtain ⟨hstored, hgeneration⟩ := hbuilt segment hnew
      exact ⟨hstored, hgeneration ▸ hlater⟩

/-- A building hands out a generation and touches files of its names only, whatever comes of it. -/
theorem build_spec (manager : Manager) (entries : List Entry) (hu : store.dir.Unshared) :
    ∃ dir built, (store.build manager entries).2 =
        ⟨dir, some { manager with next := manager.next + 1 }, store.segments ++ built⟩ ∧
      Within (FileName.ofGeneration manager.next) store.dir dir ∧
      ∀ segment ∈ built, Stored dir segment ∧ segment.generation = manager.next := by
  have hbuild : Runs (Manager.build manager.sync manager.next entries).run (.ofSnapshot store.dir) _ _ :=
    Manager.runs_build manager.sync manager.next entries hu
  rcases hrun : (Manager.build manager.sync manager.next entries).run.run (.ofSnapshot store.dir) with
    ⟨result, disk⟩
  obtain ⟨-, hpost, hwithin⟩ := hbuild.ends (Disk.plain_ofSnapshot store.dir) hrun
  cases result with
  | error error =>
    refine ⟨disk.snapshot, [], ?_, hwithin, fun _ hmem => nomatch hmem⟩
    simp only [Store.build, Manager.allocate, hrun, List.append_nil]
  | ok built =>
    refine ⟨disk.snapshot, built.toList, ?_, hwithin, fun segment hmem => ?_⟩
    · simp only [Store.build, Manager.allocate, hrun]
    · obtain rfl : built = some segment := Option.mem_toList.1 hmem
      obtain ⟨-, rfl, -, hstored, -⟩ := hpost
      exact ⟨hstored, rfl⟩

/-- **Building a segment** does the same. -/
theorem Consistent.build (h : Consistent store ledger) (hmanager : store.manager = some manager)
    (hroom : ledger.handedOut + 1 < UInt64.size - 1) (entries : List Entry) :
    Consistent (store.build manager entries).2 ⟨ledger.last, ledger.handedOut + 1⟩ := by
  obtain ⟨dir, built, hstep, hwithin, hbuilt⟩ := build_spec manager entries h.keeps.unshared
  rw [hstep]
  exact h.allocate hmanager hroom hwithin hbuilt

theorem mem_pick {positions : List Nat} {segment : Segment} (h : segment ∈ store.pick positions) :
    segment ∈ store.segments := by
  obtain ⟨position, -, hget⟩ := List.mem_filterMap.1 h
  exact List.mem_of_getElem? hget

/-- A commit puts a manifest of the segments in place, or leaves all but the temporary one as it was. -/
theorem commit_spec (manager : Manager) (named : List Segment) (hu : store.dir.Unshared) :
    ∃ dir, (store.commit manager named).2 = { store with dir } ∧
      match (store.commit manager named).1 with
      | .ok _ => Manifest.Installed (.ofSegments manager.next named) store.dir dir
      | .error _ => Within [FileName.temporary FileName.manifest] store.dir dir := by
  have hstore : Runs (manager.commit named).run (.ofSnapshot store.dir) _ _ :=
    Manifest.runs_store (.ofSegments manager.next named) hu
  rcases hrun : (manager.commit named).run.run (.ofSnapshot store.dir) with ⟨result, disk⟩
  obtain ⟨-, hpost, -⟩ := hstore.ends (Disk.plain_ofSnapshot store.dir) hrun
  refine ⟨disk.snapshot, ?_⟩
  cases result with
  | error error =>
    simp only [Store.commit, hrun, true_and]
    exact hpost.1.within
  | ok _ =>
    simp only [Store.commit, hrun, true_and]
    exact hpost

/-- **Committing segments** makes them the list committed last, if it succeeds, and leaves the list that
was, if not. -/
theorem Consistent.commit (h : Consistent store ledger) (hmanager : store.manager = some manager)
    {named : List Segment} (hnamed : ∀ segment ∈ named, segment ∈ store.segments) :
    Consistent (store.commit manager named).2 (match (store.commit manager named).1 with
      | .ok _ => ⟨some ⟨named, manager.next⟩, ledger.handedOut⟩
      | .error _ => ledger) := by
  obtain ⟨hnext, ⟨commit, hlast, hcommit⟩, hheld⟩ := h.managed manager hmanager
  obtain ⟨dir, hstep, hpost⟩ := commit_spec manager named h.keeps.unshared
  rw [hstep]
  cases hanswer : (store.commit manager named).1 with
  | error fault =>
    rw [hanswer] at hpost
    obtain ⟨hlists, hle⟩ := h.keeps.lists commit hlast
    have hbeside := hpost.mono (List.subset_cons_self FileName.manifest _)
    refine ⟨?_, ?_⟩
    · dsimp only
      rw [hlast]
      exact .of_lists (hlists.within_temporary hpost) (h.keeps.tidy.beside_manifest hbeside) hle
    · rintro other hother
      cases hmanager.symm.trans hother
      exact ⟨hnext, ⟨commit, hlast, hcommit⟩, fun segment hmem =>
        ⟨(hheld segment hmem).1.beside_manifest hbeside, (hheld segment hmem).2⟩⟩
  | ok answer =>
    rw [hanswer] at hpost
    have hheld' : ∀ segment ∈ store.segments, Stored dir segment ∧ segment.generation < manager.next :=
      fun segment hmem => ⟨(hheld segment hmem).1.beside_manifest hpost.within, (hheld segment hmem).2⟩
    have hlists : Lists dir manager.next named :=
      ⟨hpost.unshared, hpost.written, fun segment hmem => (hheld' segment (hnamed segment hmem)).1,
        fun segment hmem => (hheld' segment (hnamed segment hmem)).2⟩
    refine ⟨.of_lists hlists (h.keeps.tidy.beside_manifest hpost.within) hnext, ?_⟩
    rintro other hother
    cases hmanager.symm.trans hother
    exact ⟨hnext, ⟨_, rfl, UInt64.le_refl _⟩, hheld'⟩

/-- **An opening** goes on from the list that it returns; if it fails, there is no manager. -/
theorem Consistent.load (h : Consistent store ledger) (config : Config)
    (hroom : ledger.handedOut < UInt64.size - 1) :
    Consistent (store.load config).2 (match (store.load config).1 with
      | .ok _ => ⟨(store.load config).2.manager.map fun manager =>
          ⟨(store.load config).2.segments, manager.next⟩, ledger.handedOut⟩
      | .error _ => ledger) := by
  have hrecover : Runs (Manager.recover config).run (.ofSnapshot store.dir) _ _ :=
    Keeps.runs_recover config h.keeps (Nat.succ_pos _) (by omega)
  rcases hrun : (Manager.recover config).run.run (.ofSnapshot store.dir) with ⟨result, disk⟩
  obtain ⟨-, hpost, -⟩ := hrecover.ends (Disk.plain_ofSnapshot store.dir) hrun
  rcases result with error | ⟨manager, segments⟩
  · have hstep : store.load config = (.error (.store error), ⟨disk.snapshot, none, []⟩) := by
      simp only [Store.load, hrun]
    rw [hstep]
    exact ⟨hpost, fun manager hmanager => nomatch hmanager⟩
  · have hstep : store.load config = (.ok (.manager manager.next (segments.map Segment.info)),
        ⟨disk.snapshot, some manager, segments⟩) := by
      simp only [Store.load, hrun]
    rw [hstep]
    obtain ⟨hnext, hkeeps⟩ := hpost
    obtain ⟨hlists, -⟩ := hkeeps.lists _ rfl
    refine ⟨hkeeps, ?_⟩
    rintro _ ⟨⟩
    exact ⟨hnext, ⟨_, rfl, UInt64.le_refl _⟩, fun segment hmem =>
      ⟨hlists.stored segment hmem, hlists.below segment hmem⟩⟩

theorem note_handedOut (event : Event) :
    (ledger.note store event).handedOut = ledger.handedOut + store.handsOut event := by
  unfold Ledger.note
  dsimp only
  split <;> rfl

theorem commit_manager (named : List Segment) :
    (store.commit manager named).2.manager = store.manager := by
  unfold Store.commit
  split <;> rfl

/-- **Every event** leaves a consistent store so. -/
theorem Consistent.step (h : Consistent store ledger) (event : Event)
    (hroom : (ledger.note store event).handedOut < UInt64.size - 1) :
    Consistent (store.step event).2 (ledger.note store event) := by
  rw [note_handedOut] at hroom
  cases event with
  | load config =>
    have hload := h.load config (Nat.lt_of_le_of_lt (Nat.le_add_right _ _) hroom)
    simp only [Store.step, Ledger.note, handsOut, Nat.add_zero]
    cases hanswer : (store.load config).1 <;> rw [hanswer] at hload <;> exact hload
  | allocate =>
    cases hmanager : store.manager with
    | none => simpa [Store.step, Ledger.note, handsOut, withManager, hmanager] using h
    | some manager =>
      simp only [handsOut, hmanager, Option.isSome_some, if_true] at hroom
      have hnext : Consistent ⟨store.dir, some { manager with next := manager.next + 1 },
          store.segments ++ []⟩ ⟨ledger.last, ledger.handedOut + 1⟩ :=
        h.allocate hmanager hroom (.refl _ h.keeps.unshared) fun _ hmem => nomatch hmem
      simpa [Store.step, Ledger.note, handsOut, withManager, hmanager, Manager.allocate] using hnext
  | build entries =>
    cases hmanager : store.manager with
    | none => simpa [Store.step, Ledger.note, handsOut, withManager, hmanager] using h
    | some manager =>
      simp only [handsOut, hmanager, Option.isSome_some, if_true] at hroom
      have hbuild := h.build hmanager hroom entries
      simpa [Store.step, Ledger.note, handsOut, withManager, hmanager] using hbuild
  | commit positions =>
    cases hmanager : store.manager with
    | none => simpa [Store.step, Ledger.note, handsOut, withManager, hmanager] using h
    | some manager =>
      have hcommit := h.commit hmanager fun _ (hmem : _ ∈ store.pick positions) => mem_pick hmem
      simp only [Store.step, Ledger.note, handsOut, withManager, hmanager, Nat.add_zero]
      rw [commit_manager, hmanager]
      cases hanswer : (store.commit manager (store.pick positions)).1 <;>
        rw [hanswer] at hcommit <;> exact hcommit
  | drop => exact ⟨h.keeps, fun manager hmanager => nomatch hmanager⟩
  | block name =>
    simp only [Store.step, Ledger.note, handsOut, Nat.add_zero, change]
    cases hmade : store.dir.names.makeFolder name with
    | error cause => exact h
    | ok names => exact h.of_sameFiles (.makeFolder h.keeps.unshared hmade)
  | unblock name =>
    simp only [Store.step, Ledger.note, handsOut, Nat.add_zero, change]
    cases hremoved : store.dir.names.removeFolder name with
    | error cause => exact h
    | ok names => exact h.of_sameFiles (.removeFolder h.keeps.unshared hremoved)

theorem Reached.consistent (h : Reached store ledger) (hroom : ledger.handedOut < UInt64.size - 1) :
    Consistent store ledger := by
  induction h with
  | start => exact .start _
  | @step store ledger h event ih =>
    -- What was handed out before fits, as what is handed out in the end does.
    have hroom' : ledger.handedOut < UInt64.size - 1 :=
      Nat.lt_of_le_of_lt (note_handedOut event ▸ Nat.le_add_right _ _) hroom
    exact (ih hroom').step event hroom

/-- **Reopening returns the list committed last.** Whatever a manager does in a directory that was empty at
the start and that only such managers have used, one at a time, with directories put in the way of its
files: opening the directory finds the segments of the last commit that succeeded, or of the last opening
if there was none since, in their order and with their contents. No other segment's files are left. The next
generation is not below the one at that commit, and above all that have a file. -/
theorem reopens_last_commit (h : Reached store ledger) {commit : Commit}
    (hlast : ledger.last = some commit) (hroom : ledger.handedOut < UInt64.size - 1) (config : Config)
    (hfree : store.dir.holding (FileName.temporary FileName.manifest) ≠ .folder) :
    ∃ manager after, Manager.opening config store.dir = (.ok (manager, commit.segments), after) ∧
      Clean commit.segments after ∧
      commit.next ≤ manager.next ∧
      ∀ half generation bytes, store.dir.holding (FileName.segment half generation) = .file bytes →
        generation < manager.next := by
  obtain ⟨hkeeps, -⟩ := Reached.consistent h hroom
  obtain ⟨hlists, hle⟩ := hkeeps.lists commit hlast
  have hrecover : Runs (Manager.recover config).run (.ofSnapshot store.dir) _ _ :=
    Lists.runs_recover config hlists hkeeps.tidy
  rcases hrun : (Manager.recover config).run.run (.ofSnapshot store.dir) with ⟨result, disk⟩
  obtain ⟨-, hpost, -⟩ := hrecover.ends (Disk.plain_ofSnapshot store.dir) hrun
  rcases result with error | ⟨manager, segments⟩
  · obtain ⟨hfolder, -⟩ := hpost
    exact absurd hfolder hfree
  · obtain ⟨rfl, -, hsweeps⟩ := hpost
    obtain ⟨-, hpast⟩ := hsweeps.next_bounds hkeeps.tidy hle (Nat.succ_pos _) (by omega)
    refine ⟨manager, disk.snapshot, by simp only [Manager.opening, hrun],
      hsweeps.clean hkeeps.tidy, hsweeps.le_next, fun half generation bytes hfile => ?_⟩
    exact hpast generation (Manager.mem_generations_found_iff.2 ⟨_, Snapshot.mem_fileNames.2 ⟨bytes, hfile⟩,
      FileName.not_isTemporary_segment _ _, half, FileName.parseName?_segment half generation⟩)

/-- Two segments, committed out of order and one of them twice. A commit of the first alone fails, since a
directory is in its way, and a third segment is never committed. -/
def reordered : List Event :=
  [.load {}, .build [.put [1] [7]], .allocate, .build [.put [2] [8], .tombstone [3]], .commit [0, 1, 0],
    .block (FileName.temporary FileName.manifest), .commit [0],
    .unblock (FileName.temporary FileName.manifest), .build [.put [4] [9]]]

/-- The two are found, in that order, and the third one is gone. -/
theorem reopens_last_commit_reordered : ∃ ledger commit manager after,
    Reached (Store.empty.run reordered).2 ledger ∧ ledger.last = some commit ∧
      commit.segments.map Segment.generation = [1, 3, 1] ∧
      Manager.opening {} (Store.empty.run reordered).2.dir = (.ok (manager, commit.segments), after) ∧
      (∃ bytes, (Store.empty.run reordered).2.dir.holding (FileName.segment .data 4) = .file bytes) ∧
      (∀ bytes, after.holding (FileName.segment .data 4) ≠ .file bytes) ∧
      commit.next = 4 ∧ 4 < manager.next := by
  have hreached : Reached (Store.empty.run reordered).2 (Ledger.empty.noteAll .empty reordered) :=
    Reached.start.run reordered
  have hfacts : ((Ledger.empty.noteAll .empty reordered).last.map fun commit =>
      (commit.segments.map Segment.generation, commit.next)) = some ([1, 3, 1], 4) := by decide +kernel
  have hroom : (Ledger.empty.noteAll .empty reordered).handedOut < UInt64.size - 1 := by decide +kernel
  obtain ⟨hfree, hdata⟩ :
      (Store.empty.run reordered).2.dir.holding (FileName.temporary FileName.manifest) ≠ .folder ∧
        (Store.empty.run reordered).2.dir.holding (FileName.segment .data 4) = .file [4, 9] := by
    decide +kernel
  obtain ⟨commit, hlast, hcommit⟩ := Option.map_eq_some_iff.1 hfacts
  obtain ⟨hsegments, hnext⟩ := Prod.mk.inj hcommit
  obtain ⟨manager, after, hopening, hclean, -, hpast⟩ :=
    reopens_last_commit hreached hlast hroom {} hfree
  refine ⟨_, commit, manager, after, hreached, hlast, hsegments, hopening, ⟨_, hdata⟩,
    fun bytes hfile => ?_, hnext, hpast _ _ _ hdata⟩
  rcases hclean _ _ hfile with hname | ⟨segment, hmem, half, hname⟩
  · exact FileName.segment_ne_manifest _ _ hname
  · have hlisted : segment.generation ∈ [1, 3, 1] := hsegments ▸ List.mem_map_of_mem hmem
    rw [← (FileName.segment_inj.1 hname).2] at hlisted
    exact absurd hlisted (by decide)

end Store

end LsmTree
