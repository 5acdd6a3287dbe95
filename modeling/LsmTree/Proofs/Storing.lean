import LsmTree.Proofs.Building
import LsmTree.Proofs.ManifestRoundTrip

/-!
# Storing segments and committing them

What the manager does to the files of a directory, as one change of what the names hold:

* **`Stored`** — both files of a segment are there, and open as that segment;
* **`Manager.runs_build`** — a segment is stored under names of its own, or nothing is left behind;
* **`Manager.runs_commit`** — the manifest is replaced in one step, or left as it was.
-/

namespace LsmTree

open Snapshot (Within Restored Removed SameFiles)

/-- Both files of a segment with ascending keys are there, and open as that segment, verified or not. -/
structure Stored (snapshot : Snapshot) (segment : Segment) : Prop where
  ascending : Ascending segment.entries
  files : ∃ data index,
    snapshot.holding (FileName.segment .data segment.generation) = .file data ∧
    snapshot.holding (FileName.segment .index segment.generation) = .file index ∧
    ∀ verified, Segment.ofFiles segment.generation (some segment.info) verified data index = .ok segment

theorem Stored.of_same {s t : Snapshot} {segment : Segment} (h : Stored s segment)
    (hsame : ∀ half, t.holding (FileName.segment half segment.generation) =
      s.holding (FileName.segment half segment.generation)) : Stored t segment := by
  obtain ⟨data, index, hdata, hindex, hopen⟩ := h.files
  exact ⟨h.ascending, data, index, (hsame .data).trans hdata, (hsame .index).trans hindex, hopen⟩

theorem Stored.within {s t : Snapshot} {segment : Segment} {names : List String} (h : Stored s segment)
    (hwithin : Within names s t)
    (hnames : ∀ half, FileName.segment half segment.generation ∉ names) : Stored t segment :=
  h.of_same fun half => hwithin.same _ (hnames half)

theorem Stored.of_sameFiles {s t : Snapshot} {segment : Segment} (h : Stored s segment)
    (hsame : SameFiles s t) : Stored t segment := by
  obtain ⟨data, index, hdata, hindex, hopen⟩ := h.files
  exact ⟨h.ascending, data, index, (hsame.same _ _).2 hdata, (hsame.same _ _).2 hindex, hopen⟩

/-! ## Opening -/

namespace Segment

variable {start : Disk}

/-- What opening a file to be mapped gives, by what its name holds. -/
def mapped : Holding → Except Error Bytes
  | .nothing => .error (.io .noEntry)
  | .folder => .error (.io .noDevice)
  | .file bytes => .ok bytes

theorem runs_readFile (name : String) :
    Runs (readFile name).run start
      (fun result after => after = start ∧ result = mapped (start.snapshot.holding name))
      (fun t => t = start.snapshot) := by
  refine Runs.tryCatch Runs.read ?_ ?_
  · rintro bytes after ⟨rfl, hread⟩
    cases hholding : after.snapshot.holding name <;> rw [hholding] at hread <;> cases hread
    exact ⟨rfl, rfl⟩
  · rintro error after ⟨rfl, hread⟩
    cases hholding : after.snapshot.holding name <;> rw [hholding] at hread <;> cases hread
    · exact Runs.pure _ ⟨rfl, rfl⟩ rfl
    · exact Runs.pure _ ⟨rfl, rfl⟩ rfl

/-- What opening a segment gives, by what the names of its files hold. -/
def opened (holding : String → Holding) (generation : UInt64) (recorded : Option SegmentMeta)
    (verified : Bool) : Except Error Segment := do
  let data ← mapped (holding (FileName.segment .data generation))
  let index ← mapped (holding (FileName.segment .index generation))
  (ofFiles generation recorded verified data index).mapError (.corrupt generation)

/-- Where both files are there, they are judged as they are. -/
theorem opened_of_files {holding : String → Holding} {generation : UInt64} {data index : Bytes}
    (hdata : holding (FileName.segment .data generation) = .file data)
    (hindex : holding (FileName.segment .index generation) = .file index)
    (recorded : Option SegmentMeta) (verified : Bool) :
    opened holding generation recorded verified =
      (ofFiles generation recorded verified data index).mapError (.corrupt generation) := by
  rw [opened, hdata, hindex]
  rfl

/-- Only the names of the two files count. -/
theorem opened_congr {holding other : String → Holding} {generation : UInt64}
    (hsame : ∀ half, holding (FileName.segment half generation) =
      other (FileName.segment half generation)) (recorded : Option SegmentMeta) (verified : Bool) :
    opened holding generation recorded verified = opened other generation recorded verified := by
  rw [opened, hsame .data, hsame .index]
  rfl

/-- **Opening a segment** changes nothing, and judges the files that are there. -/
theorem runs_load (generation : UInt64) (recorded : Option SegmentMeta) (verified : Bool) :
    Runs (load generation recorded verified).run start
      (fun result after => after = start ∧
        result = opened start.snapshot.holding generation recorded verified)
      (fun t => t = start.snapshot) := by
  unfold opened
  refine Runs.andThen (runs_readFile _) ?_ ?_
  · rintro data after - ⟨rfl, hdata⟩
    rw [← hdata]
    refine Runs.andThen (runs_readFile _) ?_ ?_
    · rintro index after' - ⟨rfl, hindex⟩
      rw [← hindex]
      cases hfiles : ofFiles generation recorded verified data index with
      | ok segment => exact Runs.pure _ ⟨rfl, (congrArg (Except.mapError _) hfiles).symm⟩ rfl
      | error fault => exact Runs.pure _ ⟨rfl, (congrArg (Except.mapError _) hfiles).symm⟩ rfl
    · rintro error after' ⟨rfl, hindex⟩
      rw [← hindex]
      exact ⟨rfl, rfl⟩
  · rintro error after ⟨rfl, hdata⟩
    rw [← hdata]
    exact ⟨rfl, rfl⟩

end Segment

theorem Stored.opened {s : Snapshot} {segment : Segment} (h : Stored s segment) (verified : Bool) :
    Segment.opened s.holding segment.generation (some segment.info) verified = .ok segment := by
  obtain ⟨data, index, hdata, hindex, hopen⟩ := h.files
  rw [Segment.opened_of_files hdata hindex, hopen]
  rfl

namespace Segment

variable {start : Disk}

/-- **Taking a segment away** frees its names, unless directories have them. -/
theorem runs_remove (generation : UInt64) (hu : start.snapshot.Unshared) :
    Runs (remove generation) start
      (fun _ after => ∀ name, after.snapshot.holding name =
        if name = FileName.segment .data generation ∨ name = FileName.segment .index generation then
          (start.snapshot.holding name).withoutFile
        else start.snapshot.holding name)
      (Within [FileName.segment .data generation, FileName.segment .index generation]
        start.snapshot) :=
  runs_unlinkBoth hu _ _

end Segment

variable {start : Disk}

/-- **Taking several segments away** frees the names of each. -/
theorem Manager.runs_removeAll (generations : List UInt64) (hu : start.snapshot.Unshared) :
    Runs (removeAll generations) start
      (fun _ after => Removed (generations.flatMap FileName.halves) start.snapshot after.snapshot)
      (Within (generations.flatMap FileName.halves) start.snapshot) := by
  induction generations generalizing start with
  | nil => exact Runs.pure _ (.nil hu) (.refl _ hu)
  | cons generation rest ih =>
    rw [List.flatMap_cons]
    refine Runs.bind ((Segment.runs_remove generation hu).within (.refl _ hu)
      (List.subset_append_left _ _)) ?_
    rintro ⟨⟩ middle - ⟨hholding, hmiddle, hwithin⟩
    have hfirst : Removed (FileName.halves generation) start.snapshot middle.snapshot := by
      refine ⟨hmiddle.unshared, fun name => ?_⟩
      rw [hholding]
      simp [FileName.halves]
    refine ((ih hmiddle.unshared).within hwithin (List.subset_append_right _ _)).mono ?_ fun _ ht => ht
    rintro ⟨⟩ after ⟨hrest, -, -⟩ -
    exact hfirst.trans hrest

/-! ## Building -/

namespace Manager

variable {start : Disk}

/-- What keeps entries from becoming the segment of a generation: a directory under one of its names, keys
that do not ascend, or data past the reach of an offset. -/
def Hindered (snapshot : Snapshot) (generation : UInt64) (entries : List Entry) : Prop :=
  (∃ name ∈ FileName.ofGeneration generation, snapshot.holding name = .folder) ∨
    ¬ Ascending entries ∨ Layout.offsetSize ≤ (Layout.data entries).length

theorem Hindered.of_segment {snapshot : Snapshot} {generation : UInt64} {entries : List Entry} {half : Half}
    (h : snapshot.holding (FileName.segment half generation) = .folder) :
    Hindered snapshot generation entries :=
  .inl ⟨_, FileName.mem_ofGeneration.2 ⟨half, .inl rfl⟩, h⟩

theorem Hindered.of_temporary {snapshot : Snapshot} {generation : UInt64} {entries : List Entry} {half : Half}
    (h : snapshot.holding (Builder.temporary half generation) = .folder) :
    Hindered snapshot generation entries :=
  .inl ⟨_, FileName.mem_ofGeneration.2 ⟨half, .inr rfl⟩, h⟩

/-- A segment whose files are in place is opened, or its files are taken away again: if its data is past
the reach of an offset. -/
theorem runs_loadOrRemove {generation : UInt64} {entries : List Entry} (hasc : Ascending entries)
    (hu : start.snapshot.Unshared)
    (hdata : start.snapshot.holding (FileName.segment .data generation) = .file (Layout.data entries))
    (hindex : start.snapshot.holding (FileName.segment .index generation) =
      .file (Layout.index entries)) :
    Runs (Disk.orElse (Segment.load generation (some (Segment.ofEntries generation entries).info) false)
        (Segment.remove generation)).run start
      (fun result after => match result with
        | .ok segment => after = start ∧ segment = Segment.ofEntries generation entries ∧
            (Layout.data entries).length < Layout.offsetSize ∧ Stored start.snapshot segment
        | .error _ => Layout.offsetSize ≤ (Layout.data entries).length ∧
            ∀ half, after.snapshot.holding (FileName.segment half generation) = .nothing)
      (Within [FileName.segment .data generation, FileName.segment .index generation]
        start.snapshot) := by
  refine Runs.orElse ((Segment.runs_load generation _ false).monoCrash ?_) ?_ ?_
  · rintro t rfl
    exact .refl _ hu
  · rintro segment after ⟨rfl, hresult⟩
    have hopen := hresult.trans (Segment.opened_of_files hdata hindex _ _)
    cases hfiles : Segment.ofFiles generation (some (Segment.ofEntries generation entries).info) false
        (Layout.data entries) (Layout.index entries) with
    | error fault =>
      rw [hfiles] at hopen
      cases hopen
    | ok opened =>
      rw [hfiles] at hopen
      cases hopen
      obtain ⟨hsegment, hlength, hagain⟩ := Segment.ofFiles_info hasc hfiles
      refine ⟨rfl, hsegment, hlength, ?_⟩
      subst hsegment
      refine ⟨?_, _, _, hdata, hindex, hagain⟩
      rw [Segment.entries_ofEntries hlength]
      exact hasc
  · rintro error after ⟨rfl, hresult⟩
    have hlength : Layout.offsetSize ≤ (Layout.data entries).length := by
      refine Nat.not_lt.1 fun hlength => ?_
      rw [Segment.opened_of_files hdata hindex, Segment.ofFiles_recorded hasc hlength] at hresult
      cases hresult
    refine (Segment.runs_remove generation hu).mono ?_ fun _ ht => ht
    rintro ⟨⟩ done hholding -
    refine ⟨hlength, fun half => ?_⟩
    rw [hholding, if_pos (by cases half <;> simp)]
    cases half
    · rw [hdata]
      rfl
    · rw [hindex]
      rfl

/-- **Building a segment** stores it under the names of its generation. If that fails, or if there are
no entries, nothing stays behind. -/
theorem runs_build (sync : Bool) (generation : UInt64) (entries : List Entry)
    (hu : start.snapshot.Unshared) :
    Runs (build sync generation entries).run start
      (fun result after => match result with
        | .ok (some segment) => entries ≠ [] ∧ segment = Segment.ofEntries generation entries ∧
            (Layout.data entries).length < Layout.offsetSize ∧ Stored after.snapshot segment ∧
            ∀ half, start.snapshot.holding (FileName.segment half generation) ≠ .folder ∧
              start.snapshot.holding (Builder.temporary half generation) ≠ .folder ∧
              after.snapshot.holding (Builder.temporary half generation) = .nothing
        | .ok none => entries = [] ∧
            Restored (FileName.ofGeneration generation) start.snapshot after.snapshot
        | .error _ => Restored (FileName.ofGeneration generation) start.snapshot after.snapshot ∧
            Hindered start.snapshot generation entries)
      (Within (FileName.ofGeneration generation) start.snapshot) := by
  have hsub := Builder.temporaries_subset generation
  refine Runs.andThen ((Builder.runs_start generation sync hu).within (.refl _ hu) hsub) ?_ ?_
  · rintro builder disk₁ - ⟨⟨htracks, rfl, hsync, hfree⟩, hmade₁, hwithin₁⟩
    refine Runs.liftThen ((Builder.runs_addAll entries hwithin₁.unshared htracks List.Pairwise.nil).within
      hwithin₁ hsub) ?_
    rintro ⟨builder', refusal⟩ disk₂ - ⟨⟨hgeneration, taken, htracks', hasc, hall, hrefused⟩, hmade₂,
      hwithin₂⟩
    rw [List.nil_append] at hall hrefused
    dsimp only at htracks' hgeneration hall hrefused ⊢
    have hmade := hmade₁.trans hmade₂
    have hsegment : ∀ half, disk₂.snapshot.holding (FileName.segment half builder.generation) =
        start.snapshot.holding (FileName.segment half builder.generation) := by
      intro half
      apply hmade.same
      simp [Builder.temporaries, Builder.temporary]
    cases refusal with
    | some error =>
      have hdiscard := Builder.runs_discard hwithin₂.unshared htracks'
      rw [hgeneration] at hdiscard
      refine Runs.liftThen (hdiscard.within hwithin₂ hsub) ?_
      rintro ⟨⟩ disk₃ - ⟨hcleared, hwithin₂₃, hwithin₃⟩
      exact Runs.pure _ ⟨hcleared.restored hmade (hwithin₂₃.mono hsub) hfree,
        .inr (.inl (hrefused error rfl))⟩ hwithin₃
    | none =>
      obtain rfl := hall rfl
      have hfinish := Builder.runs_finish hwithin₂.unshared htracks'
      rw [hgeneration] at hfinish
      refine Runs.andThen (hfinish.within hwithin₂ (List.Subset.refl _)) ?_ ?_
      · rintro (_ | info) disk₃ - ⟨hfinished, hwithin₂₃, hwithin₃⟩
        · obtain ⟨hempty, hcleared⟩ := hfinished
          exact Runs.pure _ ⟨hempty, hcleared.restored hmade hwithin₂₃ hfree⟩ hwithin₃
        · obtain ⟨hentries, rfl, hdata, hindex, hplaced⟩ := hfinished
          have hopened := runs_loadOrRemove hasc hwithin₃.unshared hdata hindex
          dsimp only
          rw [ExceptT.run_map]
          refine Runs.map ((hopened.within hwithin₃ ?_).mono ?_ fun _ ht => ht)
          · simp [FileName.ofGeneration]
          · rintro (error | segment) disk₄ ⟨hopen, hwithin₃₄, hwithin₄⟩ -
            · obtain ⟨hlength, hopen⟩ := hopen
              refine ⟨.of_cleared hwithin₄ fun name hname => ?_, .inr (.inr hlength)⟩
              obtain ⟨half, rfl | rfl⟩ := FileName.mem_ofGeneration.1 hname
              · exact .inr ⟨hsegment half ▸ (hplaced half).1, hopen half⟩
              · refine .inr ⟨hfree half, ?_⟩
                rw [hwithin₃₄.same _ (by simp)]
                exact (hplaced half).2
            · obtain ⟨rfl, hsame, hlength, hstored⟩ := hopen
              exact ⟨hentries, hsame, hlength, hstored, fun half =>
                ⟨hsegment half ▸ (hplaced half).1, hfree half, (hplaced half).2⟩⟩
      · rintro error after ⟨⟨hcleared, half, hfolder⟩, hwithin₂₃, -⟩
        exact ⟨hcleared.restored hmade hwithin₂₃ hfree, .of_segment (hsegment half ▸ hfolder)⟩
  · rintro error after ⟨⟨hrestored, half, hfolder⟩, -, -⟩
    exact ⟨hrestored.mono hsub, .of_temporary hfolder⟩

end Manager

/-! ## Committing -/

namespace Manifest

variable {start : Disk} {manifest : Manifest}

/-- A directory in which a manifest has taken the place of the old one, and nothing else is changed. -/
structure Installed (manifest : Manifest) (s t : Snapshot) : Prop where
  unshared : t.Unshared
  written : ∃ bytes, manifest.encode = .ok bytes ∧ t.holding FileName.manifest = .file bytes
  free : s.holding (FileName.temporary FileName.manifest) ≠ .folder
  temporary : t.holding (FileName.temporary FileName.manifest) = .nothing
  same : ∀ name, name ≠ FileName.manifest → name ≠ FileName.temporary FileName.manifest →
    t.holding name = s.holding name

theorem Installed.within {s t : Snapshot} (h : Installed manifest s t) :
    Within [FileName.manifest, FileName.temporary FileName.manifest] s t := by
  refine ⟨h.unshared, fun name hname => ?_⟩
  obtain ⟨hmanifest, htemporary⟩ : name ≠ FileName.manifest ∧
      name ≠ FileName.temporary FileName.manifest := by simpa using hname
  exact h.same name hmanifest htemporary

/-- But for the manifest, a file may be lost at most. -/
theorem Installed.rest {s t : Snapshot} (h : Installed manifest s t) {name : String}
    (hmanifest : name ≠ FileName.manifest) :
    t.holding name = s.holding name ∨ ∃ bytes, s.holding name = .file bytes := by
  by_cases htemporary : name = FileName.temporary FileName.manifest
  · subst htemporary
    exact Holding.eq_or_file h.free h.temporary
  · exact .inl (h.same name hmanifest htemporary)

/-- The new manifest, written under its temporary name, is installed by giving it its own. -/
theorem Installed.of_renamed {s t u : Snapshot} {bytes : Bytes} (hencode : manifest.encode = .ok bytes)
    (hfree : s.holding (FileName.temporary FileName.manifest) ≠ .folder)
    (hwithin : Within [FileName.temporary FileName.manifest] s t) (hu : u.Unshared)
    (hholding : ∀ other, u.holding other = if other = FileName.manifest then .file bytes
      else if other = FileName.temporary FileName.manifest then .nothing else t.holding other) :
    Installed manifest s u := by
  refine ⟨hu, ⟨bytes, hencode, ?_⟩, hfree, ?_, fun name hmanifest htemporary => ?_⟩
  · rw [hholding, if_pos rfl]
  · rw [hholding, if_neg FileName.temporary_manifest_ne_manifest, if_pos rfl]
  · rw [hholding, if_neg hmanifest, if_neg htemporary]
    exact hwithin.same name (by simpa using htemporary)

/-- It takes the place of the old one, or is taken away again. -/
theorem runs_install {s : Snapshot} {bytes : Bytes} (hencode : manifest.encode = .ok bytes)
    (hfree : s.holding (FileName.temporary FileName.manifest) ≠ .folder)
    (hwithin : Within [FileName.temporary FileName.manifest] s start.snapshot)
    (hwritten : start.snapshot.holding (FileName.temporary FileName.manifest) = .file bytes) :
    Runs (Disk.orElse (Disk.mutate (.rename (FileName.temporary FileName.manifest) FileName.manifest))
        (Disk.attempt (.unlink (FileName.temporary FileName.manifest)))).run start
      (fun result after => match result with
        | .ok _ => Installed manifest s after.snapshot
        | .error _ => Restored [FileName.temporary FileName.manifest] s after.snapshot ∧
            s.holding FileName.manifest = .folder)
      (fun t => Within [FileName.temporary FileName.manifest] s t ∨ Installed manifest s t) := by
  have hne := FileName.temporary_manifest_ne_manifest
  refine Runs.orElse ((Runs.rename hwithin.unshared hwritten hne).withCrash.monoCrash ?_) ?_ ?_
  · rintro t (rfl | ⟨ht, hholding⟩)
    · exact .inl hwithin
    · exact .inr (.of_renamed hencode hfree hwithin ht hholding)
  · rintro ⟨⟩ after ⟨⟨-, hholding⟩, hcrash⟩
    refine .of_renamed hencode hfree hwithin ?_ hholding
    rcases hcrash with hsame | ⟨ht, -⟩
    · exact hsame ▸ hwithin.unshared
    · exact ht
  · rintro error after ⟨⟨rfl, hfolder⟩, -⟩
    refine ((Runs.unlink hwithin.unshared).within hwithin (List.Subset.refl _)).mono ?_
      fun t ht => .inl ht
    rintro ⟨⟩ done ⟨hholding, -, htotal⟩ -
    refine ⟨.of_cleared htotal fun name hname => ?_, ?_⟩
    · obtain rfl : name = FileName.temporary FileName.manifest := by simpa using hname
      refine .inr ⟨hfree, ?_⟩
      rw [hholding, if_pos rfl, hwritten]
      rfl
    · rw [← hwithin.same _ (by simpa using hne.symm)]
      exact hfolder

/-- What keeps a manifest from being stored: it is too large, or a directory is where a file is to go. -/
def Hindered (manifest : Manifest) (snapshot : Snapshot) : Prop :=
  (∃ error, manifest.encode = .error error) ∨
    snapshot.holding (FileName.temporary FileName.manifest) = .folder ∨
    snapshot.holding FileName.manifest = .folder

/-- **Storing a manifest** replaces the old one in one step, or leaves it as it was. -/
theorem runs_store (manifest : Manifest) (hu : start.snapshot.Unshared) :
    Runs manifest.store.run start
      (fun result after => match result with
        | .ok _ => Installed manifest start.snapshot after.snapshot
        | .error _ => Restored [FileName.temporary FileName.manifest] start.snapshot after.snapshot ∧
            manifest.Hindered start.snapshot)
      (fun t => Within [FileName.temporary FileName.manifest] start.snapshot t ∨
        Installed manifest start.snapshot t) := by
  cases hencode : manifest.encode with
  | error error =>
    refine Runs.of_run_eq (pure (.error error)) start rfl ?_
      (Runs.pure _ ⟨.refl _ hu, .inl ⟨error, hencode⟩⟩ (.inl (.refl _ hu)))
    rw [store, hencode]
    rfl
  | ok bytes =>
    refine Runs.of_run_eq (do
        let file ← Disk.create (FileName.temporary FileName.manifest)
        Disk.write file 0 bytes
        Disk.orElse (Disk.mutate (.rename (FileName.temporary FileName.manifest) FileName.manifest))
          (Disk.attempt (.unlink (FileName.temporary FileName.manifest))) : DiskM Unit).run start rfl ?_ ?_
    · rw [store, hencode]
      rfl
    refine Runs.andThen (((Runs.create hu).within (.refl _ hu) (List.Subset.refl _)).monoCrash
      fun t ht => .inl ht) ?_ ?_
    · rintro file disk₁ - ⟨⟨hfree, hnamed, -, hholding⟩, -, hwithin₁⟩
      have hempty : disk₁.snapshot.contents.get file = [] := by
        have hfile := hholding (FileName.temporary FileName.manifest)
        rw [if_pos rfl, Snapshot.holding_of_get?_file hnamed] at hfile
        exact Holding.file.inj hfile
      refine Runs.liftThen (((Runs.write hwithin₁.unshared hnamed 0 bytes).within hwithin₁
        (List.Subset.refl _)).monoCrash fun t ht => .inl ht) ?_
      rintro ⟨⟩ disk₂ - ⟨⟨-, hholding₂⟩, -, hwithin₂⟩
      have hwritten : disk₂.snapshot.holding (FileName.temporary FileName.manifest) = .file bytes := by
        rw [hholding₂, if_pos rfl, hempty]
        exact congrArg Holding.file (Contents.overwritten_length [] bytes)
      refine (runs_install hencode hfree hwithin₂ hwritten).mono ?_ fun _ ht => ht
      rintro (error | ⟨⟩) after hpost -
      · exact ⟨hpost.1, .inr (.inr hpost.2)⟩
      · exact hpost
    · rintro error after ⟨⟨rfl, hfolder⟩, -, -⟩
      exact ⟨.refl _ hu, .inr (.inl hfolder)⟩

end Manifest

end LsmTree
