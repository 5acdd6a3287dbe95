import LsmTree.Proofs.Touching

/-!
# Generations that are free

A generation that an opening has made out to be new is new: the names of its files, and those of all later
generations, are free.

* **`Manager.ends_committed_seen`** — a segment that the manifest lists and that opens was found by name;
* **`Snapshot.Vacant`** — from some generation on no name is that of a file, which building
  (**`Vacant.built`**), committing (**`Vacant.committed`**) and taking segments away (**`Vacant.removed`**)
  keep so;
* **`Manager.ends_recover_vacant`** — an opening leaves the directory so, and goes on past every generation
  that it found or that the manifest listed.
-/

namespace LsmTree

/-! ## What is listed was found -/

section Listed

variable {disk : Disk}

theorem Disk.looks_seen (name : String) :
    Looks (Disk.read name) disk fun _ => name ∈ Manager.seen disk := by
  simp only [Looks, Ends, Disk.read, ExceptT.run, ExceptT.mk, StateT.run]
  cases hreach : disk.reach [name] with
  | error cause => exact Looks.throw _
  | ok dir =>
    obtain ⟨hfits, hfolder⟩ := Disk.reach_eq_ok.1 hreach
    dsimp only
    cases hget : dir.get? name with
    | none => exact Looks.throw _
    | some node =>
      cases node with
      | folder entries => exact Looks.throw _
      | file number =>
        have hfile : disk.snapshot.file? name = some (disk.contents.get number) := by
          rw [Snapshot.file?, Disk.names_of_folder hfolder, Directory.file?, hget]
          rfl
        have hseen : name ∈ Manager.seen disk :=
          Manager.mem_seen.2 ⟨⟨_, hfile⟩, hfits name List.mem_cons_self⟩
        exact Looks.pure _ hseen

/-- A segment that opens has its data file among those that a listing finds. -/
theorem Segment.looks_load_seen (generation : UInt64) (recorded : Option SegmentMeta) (verified : Bool) :
    Looks (Segment.load generation recorded verified) disk fun _ =>
      FileName.segment .data generation ∈ Manager.seen disk := by
  have hread : Looks (Segment.readFile (FileName.segment .data generation)) disk fun _ =>
      FileName.segment .data generation ∈ Manager.seen disk := by
    refine Looks.relabel (Disk.looks_seen _) fun error => ?_
    split <;> exact Looks.throw _
  refine Looks.andThen hread fun data hseen => ?_
  refine Looks.andThen (Segment.looks_readFile _) fun index _ => ?_
  split
  · exact Looks.pure _ hseen
  · exact Looks.throw _

namespace Manager

theorem looks_loadListed_seen (verified : Bool) (metas : List SegmentMeta) :
    Looks (loadListed verified metas) disk fun _ => ∀ recorded ∈ metas,
      FileName.segment .data recorded.generation ∈ seen disk := by
  induction metas with
  | nil => exact Looks.pure _ (by simp)
  | cons first rest ih =>
    have hload : Looks (loadCommitted first.generation (some first) verified) disk fun _ =>
        FileName.segment .data first.generation ∈ seen disk := by
      refine Looks.relabel (Segment.looks_load_seen _ _ _) fun error => ?_
      split <;> exact Looks.throw _
    refine Looks.andThen hload fun head hhead => ?_
    refine Looks.andThen ih fun tail htail => ?_
    exact Looks.pure _ (List.forall_mem_cons.2 ⟨hhead, htail⟩)

/-- **What the manifest lists was found by name**, if all of it opens. -/
theorem ends_committed_seen (verified : Bool) (found : Found) :
    Ends (committed verified found).run disk fun result _ => ∀ picked, result = .ok picked →
      ∀ bytes manifest, disk.snapshot.file? FileName.manifest = some bytes →
        Manifest.decode bytes = .ok manifest → ∀ recorded ∈ manifest.segments,
          FileName.segment .data recorded.generation ∈ seen disk := by
  refine Ends.andThen Manifest.looks_load ?_ (by rintro error after - picked ⟨⟩)
  rintro (_ | manifest) after ⟨rfl, hmanifest⟩
  · have hunwritten : after.snapshot.file? FileName.manifest = none := hmanifest _ rfl
    refine Ends.andThen (looks_loadFound verified found _) ?_ (by rintro error _ - picked ⟨⟩)
    rintro segments _ -
    refine Ends.pure _ ?_
    intro picked _ bytes manifest hwritten
    rw [hunwritten] at hwritten
    cases hwritten
  · obtain ⟨bytes, hwritten, hdecode⟩ := hmanifest _ rfl
    refine Ends.andThen (looks_loadListed_seen verified manifest.segments) ?_
      (by rintro error _ - picked ⟨⟩)
    rintro segments _ ⟨-, hseen⟩
    refine Ends.liftThen (ends_removeAll _) fun _ last _ => Ends.pure _ ?_
    intro picked _ bytes' manifest' hwritten' hdecode'
    cases hwritten.symm.trans hwritten'
    cases hdecode.symm.trans hdecode'
    exact hseen segments rfl

end Manager

end Listed

/-! ## Generations that are free -/

/-- The four names of a generation are those of no other one. -/
theorem FileName.generation_unique {name : String} {generation other : UInt64}
    (h : name ∈ ofGeneration generation) (h' : name ∈ ofGeneration other) : generation = other := by
  obtain ⟨half, hname⟩ := mem_ofGeneration.1 h
  obtain ⟨half', hname'⟩ := mem_ofGeneration.1 h'
  rcases hname with rfl | rfl
  · rcases hname' with hsame | hsame
    · exact (segment_inj.1 hsame).2
    · exact absurd hsame (segment_ne_temporary_segment _ _ _ _)
  · rcases hname' with hsame | hsame
    · exact absurd hsame (temporary_segment_ne_segment _ _ _ _)
    · exact (segment_inj.1 (temporary_inj.1 hsame)).2

/-- From some generation on no name that is short enough is that of a file, and neither is the temporary name
of the manifest. -/
structure Snapshot.Vacant (room : Option Nat) (first : Nat) (s : Snapshot) : Prop where
  whole : s.Whole
  free : ∀ generation : UInt64, first ≤ generation.toNat → ∀ name ∈ FileName.ofGeneration generation,
    fitsIn room name = true → s.names.file? name = none
  draft : fitsIn room (FileName.temporary FileName.manifest) = true →
    s.names.file? (FileName.temporary FileName.manifest) = none

namespace Snapshot.Vacant

variable {room : Option Nat} {first : Nat} {start after : Disk} {generation : UInt64}

/-- Taking files away leaves it so. -/
theorem pruned {gone : String → Prop} (h : start.snapshot.Vacant room first)
    (hpruned : Disk.Pruned gone start after) : after.snapshot.Vacant room first where
  whole := hpruned.whole h.whole
  free := fun generation hle name hname hfits => hpruned.noFile (h.free generation hle name hname hfits)
  draft := fun hfits => hpruned.noFile (h.draft hfits)

theorem removed (h : start.snapshot.Vacant room first) (generation : UInt64) :
    Ends (Segment.remove generation) start fun _ after =>
      start.Touched (· ∈ FileName.halves generation) after ∧ after.snapshot.Vacant room first :=
  (Segment.ends_remove generation).mono fun _ _ hpruned =>
    ⟨(Disk.Touched.refl _ _).pruned hpruned fun _ hmem => hmem, h.pruned hpruned⟩

/-- **Building the first generation** that is free leaves the later ones free, and every file as it was. -/
theorem built (h : start.snapshot.Vacant start.room first) (hfirst : generation.toNat = first)
    (sync : Bool) (entries : List Entry) :
    Ends (Manager.build sync generation entries).run start fun _ after =>
      start.Touched (fun name => name ∈ FileName.ofGeneration generation ∧
        fitsIn start.room name = true) after ∧
      after.snapshot.Vacant start.room (first + 1) ∧
      ∀ name bytes, start.snapshot.file? name = some bytes → after.snapshot.file? name = some bytes := by
  have hfree := h.free generation (Nat.le_of_eq hfirst.symm)
  have hoffers : start.Offers generation fun name =>
      name ∈ FileName.ofGeneration generation ∧ fitsIn start.room name = true :=
    fun name hname hfits => ⟨⟨hname, hfits⟩, hfree name hname hfits⟩
  refine (Manager.touched_build hoffers sync entries).mono fun _ after htouched => ?_
  refine ⟨htouched, ⟨htouched.snapshot.whole h.whole, ?_, ?_⟩, ?_⟩
  · intro other hle name hname hfits
    refine htouched.snapshot.noFile ?_ (h.free other (by omega) name hname hfits)
    rintro ⟨hname', -⟩
    have hsame := FileName.generation_unique hname hname'
    rw [hsame] at hle
    omega
  · intro hfits
    refine htouched.snapshot.noFile ?_ (h.draft hfits)
    exact fun hname => FileName.temporary_manifest_not_mem_ofGeneration generation hname.1
  · intro name bytes hfile
    exact htouched.snapshot.file?_kept h.whole (fun name hname => hfree name hname.1 hname.2) hfile

/-- **Storing a manifest** leaves the free generations free. -/
theorem committed (h : start.snapshot.Vacant start.room first) (manifest : Manifest) :
    Ends manifest.store.run start fun _ after =>
      start.Touched (fun name => name = FileName.manifest ∨
        name = FileName.temporary FileName.manifest) after ∧
      after.snapshot.Vacant start.room first := by
  have htouched : Ends manifest.store.run start fun _ after =>
      start.Touched (fun name => name = FileName.manifest ∨
        name = FileName.temporary FileName.manifest) after :=
    Manifest.touched_store manifest (.inl rfl) (.inr rfl) h.draft
  -- What the names lead to does not tell that the temporary file is gone; the octets under them do.
  have hdraft : Ends manifest.store.run start fun _ after =>
      start.snapshot.names.file? (FileName.temporary FileName.manifest) = none →
        after.snapshot.names.file? (FileName.temporary FileName.manifest) = none := by
    refine (Manifest.ends_store manifest h.whole h.draft).mono ?_
    intro result after hstored hnone
    have hsame : after.snapshot.file? (FileName.temporary FileName.manifest) =
        start.snapshot.file? (FileName.temporary FileName.manifest) := by
      cases result with
      | error error => exact hstored.2 _
      | ok stored =>
        obtain ⟨-, bytes, -, hfiles⟩ := hstored
        rw [hfiles, if_neg FileName.temporary_manifest_ne_manifest]
    rw [Snapshot.file?, Snapshot.file?, hnone, Option.map_none, Option.map_eq_none_iff] at hsame
    exact hsame
  refine ⟨htouched, htouched.snapshot.whole h.whole, ?_, fun hfits => hdraft (h.draft hfits)⟩
  intro generation hle name hname hfits
  refine Snapshot.Touched.noFile htouched.snapshot ?_ (h.free generation hle name hname hfits)
  intro hmine
  rcases hmine with rfl | rfl
  · exact FileName.manifest_not_mem_ofGeneration generation hname
  · exact FileName.temporary_manifest_not_mem_ofGeneration generation hname

end Snapshot.Vacant

/-! ## What an opening leaves -/

namespace Manager

variable {disk : Disk}

/-- The generation that is handed out next is past all that were found, short of the last one there is. -/
theorem lt_resumed {found : Found} (next : UInt64)
    (hlow : ∀ generation ∈ generations found, generation.toNat < UInt64.size - 1) {generation : UInt64}
    (hmem : generation ∈ generations found) : generation.toNat < (resumed found next).toNat :=
  (resumed_isGreatest next hlow).2 (.inr (.inr ⟨generation, hmem, rfl⟩))

/-- The generations of the segment files that a listing finds. -/
theorem mem_generations_seen {generation : UInt64} : generation ∈ generations (found (seen disk)) ↔
    ∃ name ∈ seen disk, ∃ half, FileName.parseName? name = some (generation, half) := by
  rw [mem_generations_found_iff]
  constructor
  · rintro ⟨name, hseen, -, half, hparse⟩
    exact ⟨name, hseen, half, hparse⟩
  · rintro ⟨name, hseen, half, hparse⟩
    exact ⟨name, hseen, FileName.not_isTemporary_of_parseName? hparse, half, hparse⟩

/-- Once the temporary files are gone, nothing is found under the names of generations past all that were
seen. Files that were taken away since make no difference. -/
theorem vacant_of_scanned {scanned last : Disk} {gone : String → Prop} {first : Nat}
    (hwhole : disk.snapshot.Whole) (hscanned : Disk.Pruned (FileName.isTemporary · = true) disk scanned)
    (htemporary : ∀ name, FileName.isTemporary name = true → disk.fits name = true →
      scanned.snapshot.names.file? name = none)
    (hpruned : Disk.Pruned gone scanned last)
    (hbound : ∀ generation ∈ generations (found (seen disk)), generation.toNat < first) :
    last.snapshot.Vacant disk.room first := by
  refine Snapshot.Vacant.pruned ⟨hscanned.whole hwhole, ?_, ?_⟩ hpruned
  · intro generation hle name hname hfits
    obtain ⟨half, rfl | rfl⟩ := FileName.mem_ofGeneration.1 hname
    · refine hscanned.noFile ?_
      cases hfile : disk.snapshot.names.file? (FileName.segment half generation) with
      | none => rfl
      | some number =>
        have hseen : FileName.segment half generation ∈ seen disk := by
          refine mem_seen.2 ⟨⟨disk.snapshot.contents.get number, ?_⟩, hfits⟩
          rw [Snapshot.file?, hfile, Option.map_some]
        have hmem : generation ∈ generations (found (seen disk)) :=
          mem_generations_seen.2 ⟨_, hseen, half, FileName.parseName?_segment half generation⟩
        exact absurd (hbound generation hmem) (by omega)
    · exact htemporary _ (FileName.isTemporary_temporary_segment half generation) hfits
  · exact htemporary _ FileName.isTemporary_temporary_manifest

/-- What was found by name once the temporary files were gone had been found before, too. -/
theorem mem_generations_of_scanned {scanned : Disk} {generation : UInt64}
    (hscanned : Disk.Pruned (FileName.isTemporary · = true) disk scanned)
    (hseen : FileName.segment .data generation ∈ seen scanned) :
    generation ∈ generations (found (seen disk)) := by
  obtain ⟨⟨content, hfile⟩, hfits⟩ := mem_seen.1 hseen
  have hfile' : disk.snapshot.file? (FileName.segment .data generation) = some content := by
    rcases hscanned.file? (FileName.segment .data generation) with hsame | ⟨-, hnone⟩
    · rw [← hsame, hfile]
    · rw [hnone] at hfile
      cases hfile
  exact mem_generations_seen.2 ⟨_, mem_seen.2 ⟨⟨content, hfile'⟩, by rw [← hscanned.fits, hfits]⟩,
    .data, FileName.parseName?_segment .data generation⟩

/-- **An opening** that succeeds hands out next a generation that is past all that were found and past all
that the manifest lists, and leaves it and all later ones free. -/
theorem ends_recover_vacant (config : Config) (hwhole : disk.snapshot.Whole)
    (hlow : ∀ generation ∈ generations (found (seen disk)), generation.toNat < UInt64.size - 1) :
    Ends (recover config).run disk fun result after => ∀ manager segments,
      result = .ok (manager, segments) →
        disk.Touched (fun _ => True) after ∧
        after.snapshot.Vacant disk.room manager.next.toNat ∧
        (∀ generation ∈ generations (found (seen disk)), generation.toNat < manager.next.toNat) ∧
        ∀ bytes manifest, disk.snapshot.file? FileName.manifest = some bytes →
          Manifest.decode bytes = .ok manifest → ∀ recorded ∈ manifest.segments,
            recorded.generation ∈ generations (found (seen disk)) := by
  refine Ends.andThen ends_scan ?_ (by rintro error after - manager segments ⟨⟩)
  rintro names scanned ⟨hscanned, rfl, htemporary⟩
  refine Ends.andThen ((ends_committed config.verifyChecksums _).and (ends_committed_seen _ _)) ?_
    (by rintro error after - manager segments ⟨⟩)
  rintro ⟨segments, next⟩ last ⟨hpicks, hlisted⟩
  obtain ⟨-, -, gone, hpruned⟩ := hpicks.spared hscanned
  let manager : Manager := ⟨config.syncWrites, resumed (found (seen disk)) next⟩
  have hbound : ∀ generation ∈ generations (found (seen disk)),
      generation.toNat < manager.next.toNat := fun generation hmem => lt_resumed next hlow hmem
  have hroom : last.room = disk.room := hpruned.room.trans hscanned.room
  have hvacant : last.snapshot.Vacant last.room manager.next.toNat :=
    hroom ▸ vacant_of_scanned hwhole hscanned htemporary hpruned hbound
  refine Ends.andThen (hvacant.committed (Manifest.current manager.next
    (segments.reverse.reverse.map Segment.info))) ?_ (by rintro error after - manager segments ⟨⟩)
  rintro ⟨⟩ after ⟨htouched, hafter⟩
  refine Ends.pure _ ?_
  intro manager' segments' hopened
  cases hopened
  refine ⟨?_, hroom ▸ hafter, hbound, ?_⟩
  · have hbefore := ((Disk.Touched.refl (fun _ => True) disk).pruned hscanned fun _ _ => trivial).pruned
      hpruned fun _ _ => trivial
    exact hbefore.trans (htouched.mono fun _ _ => trivial)
  · intro bytes manifest hwritten hdecode recorded hmem
    have hwritten' : scanned.snapshot.file? FileName.manifest = some bytes := by
      rw [(spared_of_scan hscanned config.verifyChecksums).manifest, hwritten]
    exact mem_generations_of_scanned hscanned (hlisted _ rfl bytes manifest hwritten' hdecode recorded hmem)

end Manager

end LsmTree
