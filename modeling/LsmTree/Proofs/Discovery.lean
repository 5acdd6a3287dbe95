import LsmTree.Proofs.Leftovers
import Mathlib.Data.List.Forall2

/-!
# Opening without a manifest, and opening again

Where there is no manifest, the committed segments are those found by name. Either way an opening leaves a
manifest behind that tells all there is, and no segments but those:

* **`Manager.Discovers`**, **`Manager.discovers_of_opening`** — all that an opening does to a directory
  without a manifest, name by name, and what it takes to succeed;
* **`Segment.ofFiles_again`** — a segment opens as it is by what is recorded of it;
* **`Manager.Settled`**, **`Manager.opening_settles`** — a directory as openings leave it, and
  **`Manager.Settled.opening`** — which they do not change any more;
* **`Manager.recover_idempotent`** — opening a directory twice comes to the same as opening it once.
-/

namespace LsmTree

open Snapshot (Removed)

namespace Segment

variable {generation : UInt64} {recorded : Option SegmentMeta} {verified : Bool} {data index : Bytes}
  {segment first : Segment}

/-! ## Segments opened again -/

theorem checkRecorded_info (segment : Segment) : segment.checkRecorded segment.info = .ok () :=
  if_neg fun hother => hother rfl

/-- Verification changes nothing but the checksum, and keeps the one that it computes. -/
theorem verify_eq_ok (h : first.verify = .ok segment) :
    segment = { first with dataCrc := some first.data.crc32 } ∧ first.disorder? = none := by
  rw [verify] at h
  cases hsum : first.dataCrc.filter fun recorded => recorded ≠ first.data.crc32 with
  | some recorded =>
    rw [hsum] at h
    cases h
  | none =>
    rw [hsum] at h
    cases horder : first.disorder? with
    | some position =>
      rw [horder] at h
      cases h
    | none =>
      rw [horder] at h
      exact ⟨(Except.ok.inj h).symm, rfl⟩

theorem verify_again (h : first.verify = .ok segment) : segment.verify = .ok segment := by
  obtain ⟨rfl, horder⟩ := verify_eq_ok h
  have hsum : (some first.data.crc32).filter (fun recorded => recorded ≠ first.data.crc32) = none := by
    simp [Option.filter]
  have horder' : disorder? { first with dataCrc := some first.data.crc32 } = none := horder
  rw [verify, hsum]
  dsimp only
  rw [horder']

/-- **An opened segment opens again** by what is recorded of it, as it is. -/
theorem ofFiles_again (h : ofFiles generation recorded verified data index = .ok segment) :
    segment.generation = generation ∧
      ofFiles generation (some segment.info) verified data index = .ok segment := by
  obtain ⟨slots, hindex, hverified⟩ := ofFiles_eq_ok h
  -- With its own checksum recorded, what is opened is the segment even before it is verified.
  have hagain : ∀ crc, segment = ⟨generation, data, slots, crc⟩ →
      (if verified then segment.verify else .ok segment) = .ok segment →
      segment.generation = generation ∧
        ofFiles generation (some segment.info) verified data index = .ok segment := by
    rintro crc rfl hend
    refine ⟨rfl, ?_⟩
    rw [ofFiles, hindex]
    show (checkRecorded ⟨generation, data, slots, crc⟩ (info ⟨generation, data, slots, crc⟩) >>= _) = _
    rw [checkRecorded_info]
    exact hend
  cases verified with
  | false =>
    refine hagain (recorded.bind SegmentMeta.dataCrc) ?_ rfl
    exact (Except.ok.inj hverified).symm
  | true =>
    refine hagain (some data.crc32) ?_ ?_
    · exact (verify_eq_ok hverified).1
    · exact verify_again hverified

theorem opened_eq_ok {holding : String → Holding} :
    opened holding generation recorded verified = .ok segment ↔ ∃ data index,
      holding (FileName.segment .data generation) = .file data ∧
      holding (FileName.segment .index generation) = .file index ∧
      ofFiles generation recorded verified data index = .ok segment := by
  constructor
  · intro h
    cases hdata : holding (FileName.segment .data generation) with
    | file data =>
      cases hindex : holding (FileName.segment .index generation) with
      | file index =>
        rw [opened_of_files hdata hindex] at h
        cases hfiles : ofFiles generation recorded verified data index with
        | ok found =>
          rw [hfiles] at h
          cases h
          exact ⟨data, index, rfl, rfl, hfiles⟩
        | error fault =>
          rw [hfiles] at h
          cases h
      | _ =>
        rw [opened, hdata, hindex] at h
        cases h
    | _ =>
      rw [opened, hdata] at h
      cases h
  · rintro ⟨data, index, hdata, hindex, hfiles⟩
    rw [opened_of_files hdata hindex, hfiles]
    rfl

/-- So it does by the names of its files. -/
theorem opened_again {holding : String → Holding}
    (h : opened holding generation recorded verified = .ok segment) :
    segment.generation = generation ∧
      opened holding segment.generation (some segment.info) verified = .ok segment := by
  obtain ⟨data, index, hdata, hindex, hfiles⟩ := opened_eq_ok.1 h
  obtain ⟨rfl, hagain⟩ := ofFiles_again hfiles
  exact ⟨rfl, opened_eq_ok.2 ⟨data, index, hdata, hindex, hagain⟩⟩

end Segment

namespace Manager

variable {start : Disk} {config : Config} {manager : Manager} {segments : List Segment}
  {s t u : Snapshot} {holding other : String → Holding} {verified : Bool}

theorem mapM_eq_ok {α β : Type} {f : α → Except Error β} {inputs : List α} {outputs : List β} :
    inputs.mapM f = .ok outputs ↔ List.Forall₂ (fun input output => f input = .ok output) inputs outputs := by
  induction inputs generalizing outputs with
  | nil =>
    rw [List.mapM_nil, List.forall₂_nil_left_iff]
    constructor
    · intro h
      cases h
      rfl
    · rintro rfl
      rfl
  | cons input rest ih =>
    rw [List.mapM_cons, List.forall₂_cons_left_iff]
    constructor
    · intro h
      cases hhead : f input with
      | error error =>
        rw [hhead] at h
        cases h
      | ok output =>
        cases htail : rest.mapM f with
        | error error =>
          rw [hhead, htail] at h
          cases h
        | ok others =>
          rw [hhead, htail] at h
          cases h
          exact ⟨output, others, rfl, ih.1 htail, rfl⟩
    · rintro ⟨output, others, hhead, htail, rfl⟩
      rw [hhead, ih.2 htail]
      rfl

theorem loaded_eq_ok {generation : UInt64} {recorded : Option SegmentMeta} {segment : Segment} :
    loaded holding generation recorded verified = .ok segment ↔
      Segment.opened holding generation recorded verified = .ok segment := by
  rw [loaded]
  cases Segment.opened holding generation recorded verified with
  | error error => constructor <;> (intro h; cases h)
  | ok found => exact Iff.rfl

theorem sought_eq_ok {found : Found} {generation : UInt64} {segment : Segment} :
    sought holding verified found generation = .ok segment ↔
      missingHalf? found generation = none ∧
        Segment.opened holding generation none verified = .ok segment := by
  rw [sought]
  cases missingHalf? found generation with
  | some half => simp
  | none => simp [loaded_eq_ok]

/-- Segments that are opened, one for each generation of a list, are listed by what is then recorded of
them. -/
theorem listed_again {α : Type} {f : α → Except Error Segment} {generation : α → UInt64}
    {inputs : List α} (hf : ∀ input segment, f input = .ok segment →
      ∃ recorded, Segment.opened holding (generation input) recorded verified = .ok segment)
    (h : inputs.mapM f = .ok segments) :
    segments.map Segment.generation = inputs.map generation ∧
      listed holding verified (segments.map Segment.info) = .ok segments := by
  have hopened := mapM_eq_ok.1 h
  clear h
  induction hopened with
  | nil => exact ⟨rfl, rfl⟩
  | cons hhead _ ih =>
    obtain ⟨recorded, hhead⟩ := hf _ _ hhead
    obtain ⟨hgeneration, hagain⟩ := Segment.opened_again hhead
    rw [List.map_cons, List.map_cons, hgeneration, ih.1]
    exact ⟨rfl, mapM_eq_ok.2 (.cons (loaded_eq_ok.2 hagain) (mapM_eq_ok.1 ih.2))⟩

theorem listed_of_listed {metas : List SegmentMeta} (h : listed holding verified metas = .ok segments) :
    segments.map Segment.generation = metas.map SegmentMeta.generation ∧
      listed holding verified (segments.map Segment.info) = .ok segments :=
  listed_again (fun recorded _ hopened => ⟨some recorded, loaded_eq_ok.1 hopened⟩) h

theorem listed_of_discovered {found : Found} (h : discovered holding verified found = .ok segments) :
    segments.map Segment.generation = generations found ∧
      listed holding verified (segments.map Segment.info) = .ok segments := by
  have hlisted := listed_again (fun _ _ hopened => ⟨none, (sought_eq_ok.1 hopened).2⟩) h
  rwa [List.map_id'] at hlisted

/-- Only the names of the files of segments count. -/
theorem discovered_congr (hsame : ∀ half generation, holding (FileName.segment half generation) =
    other (FileName.segment half generation)) (verified : Bool) (found : Found) :
    discovered holding verified found = discovered other verified found := by
  have hsought : sought holding verified found = sought other verified found := by
    funext generation
    rw [sought, sought, loaded, loaded, Segment.opened_congr fun half => hsame half generation]
  rw [discovered, discovered, hsought]

/-! ## An opening without a manifest -/

/-- What an opening makes of a directory without a manifest: all segments found by name are open, a
manifest of them is written, temporary files are gone, and every other name holds what it held. -/
structure Discovers (config : Config) (s : Snapshot) (manager : Manager) (segments : List Segment)
    (after : Snapshot) : Prop where
  loaded : discovered s.holding config.verifyChecksums (found s.names.fileNames) =
    .ok segments.reverse
  manager_eq : manager = ⟨config.syncWrites, resumed (found s.names.fileNames) 0⟩
  written : ∃ bytes,
    (Manifest.current manager.next (segments.reverse.map Segment.info)).encode = .ok bytes ∧
      after.holding FileName.manifest = .file bytes
  free : s.holding (FileName.temporary FileName.manifest) ≠ .folder
  temporary : ∀ name, FileName.isTemporary name = true →
    after.holding name = (s.holding name).withoutFile
  same : ∀ name, FileName.isTemporary name = false → name ≠ FileName.manifest →
    after.holding name = s.holding name

/-- What an opening needs of a directory without a manifest: segments that open, a manifest of them that
can be written, and no directory in the way of it. -/
structure Discoverable (config : Config) (s : Snapshot) (segments : List Segment) : Prop where
  loaded : discovered s.holding config.verifyChecksums (found s.names.fileNames) = .ok segments.reverse
  encodes : ∃ next bytes, (Manifest.current next (segments.reverse.map Segment.info)).encode = .ok bytes
  free : s.holding (FileName.temporary FileName.manifest) ≠ .folder

/-- A manifest of the segments found completes what an opening makes of a directory. -/
theorem Discovers.of_installed (hscanned : Removed (leftovers s.names.fileNames) s t)
    (hloaded : discovered s.holding config.verifyChecksums (found s.names.fileNames) =
      .ok segments.reverse)
    (hinstalled : Manifest.Installed (Manifest.current (resumed (found s.names.fileNames) 0)
      (segments.reverse.map Segment.info)) t u) :
    Discovers config s ⟨config.syncWrites, resumed (found s.names.fileNames) 0⟩ segments u := by
  have hfree := mt hscanned.folder_iff.2 hinstalled.free
  refine ⟨hloaded, rfl, hinstalled.written, hfree, fun name htemporary => ?_, fun name hkept hname => ?_⟩
  · by_cases hname : name = FileName.temporary FileName.manifest
    · rw [hname, hinstalled.temporary, Holding.withoutFile_eq_nothing.2 hfree]
    · have hother := FileName.ne_of_isTemporary htemporary FileName.not_isTemporary_manifest
      rw [hinstalled.same name hother hname, scanned_holding hscanned, if_pos htemporary]
  · have hother := FileName.ne_of_isTemporary FileName.isTemporary_temporary_manifest hkept
    rw [hinstalled.same name hname hother.symm, scanned_holding hscanned, if_neg (by simp [hkept])]

/-- **An opening of a directory without a manifest** opens all segments found by name, and succeeds
whenever it can. -/
theorem runs_discovers (config : Config) (hu : start.snapshot.Unshared)
    (hnothing : start.snapshot.holding FileName.manifest = .nothing) :
    Runs (recover config).run start
      (fun result after => match result with
        | .ok (manager, segments) => Discovers config start.snapshot manager segments after.snapshot
        | .error _ => ∀ segments, ¬ Discoverable config start.snapshot segments)
      Snapshot.Unshared := by
  refine (runs_parts config hu).mono ?_ fun _ ht => ht.unshared
  rintro result after ⟨scanned, hscanned, t, outcome, -, hfinds, houtcome⟩ -
  have hnothing' : scanned.holding FileName.manifest = .nothing := by
    rw [scanned_holding hscanned, if_neg (by simp [FileName.not_isTemporary_manifest]), hnothing]
  -- The scan leaves the files of segments alone, so the same segments are found after it.
  have hsegment : ∀ half generation, scanned.holding (FileName.segment half generation) =
      start.snapshot.holding (FileName.segment half generation) := by
    intro half generation
    rw [scanned_holding hscanned, if_neg (by simp [FileName.not_isTemporary_segment])]
  obtain ⟨rfl, hfound⟩ := hfinds.unwritten hnothing'
  rw [discovered_congr hsegment] at hfound
  cases hdiscovered : discovered start.snapshot.holding config.verifyChecksums
      (found start.snapshot.names.fileNames) with
  | error error =>
    rw [hdiscovered] at hfound
    subst hfound
    cases result with
    | ok opened => exact houtcome.elim
    | error fault =>
      intro segments hdiscoverable
      rw [hdiscoverable.loaded] at hdiscovered
      cases hdiscovered
  | ok segments =>
    rw [hdiscovered] at hfound
    subst hfound
    cases result with
    | ok opened =>
      obtain ⟨manager, opened⟩ := opened
      obtain ⟨rfl, rfl, hinstalled⟩ := houtcome
      exact .of_installed hscanned (by rw [hdiscovered, List.reverse_reverse]) hinstalled
    | error fault =>
      intro segments' hdiscoverable
      rw [hdiscoverable.loaded] at hdiscovered
      cases hdiscovered
      -- Storing the manifest fails for one of three reasons, and none of them is there.
      obtain ⟨-, ⟨error, hrefused⟩ | hreason | hreason⟩ := houtcome
      · obtain ⟨next, bytes, hencode⟩ := hdiscoverable.encodes
        obtain ⟨bytes', hencode'⟩ := Manifest.encode_current hencode
          (resumed (found start.snapshot.names.fileNames) 0)
        rw [List.reverse_reverse, hencode'] at hrefused
        cases hrefused
      · exact hdiscoverable.free (hscanned.folder_iff.1 hreason)
      · rw [hnothing'] at hreason
        cases hreason

/-- What holds of every opening holds of its result and of the directory after it. -/
theorem opening_of_runs {result : Except Error (Manager × List Segment)} {crash : Snapshot → Prop}
    (post : Except Error (Manager × List Segment) → Snapshot → Prop)
    (h : Runs (recover config).run (Disk.ofSnapshot s) (fun result after => post result after.snapshot)
      crash) (hopens : opening config s = (result, t)) : post result t ∧ crash t := by
  obtain ⟨hpost, hcrash⟩ := h.apply (Disk.plain_ofSnapshot s)
  rw [opening, Prod.mk.injEq] at hopens
  obtain ⟨rfl, rfl⟩ := hopens
  exact ⟨hpost, hcrash⟩

/-- An opening that succeeds has read the manifest, or there was none. -/
theorem manifest?_of_opening (hu : s.Unshared)
    (hopens : opening config s = (.ok (manager, segments), t)) :
    ∃ manifest, manifest? (s.holding FileName.manifest) = .ok manifest := by
  obtain ⟨⟨scanned, hscanned, u, outcome, -, hfinds, houtcome⟩, -⟩ := opening_of_runs
    (fun result after => ∃ scanned, Removed (leftovers s.names.fileNames) s scanned ∧
      Recovers config (found s.names.fileNames) scanned result after) (runs_parts config hu) hopens
  have hmanifest : scanned.holding FileName.manifest = s.holding FileName.manifest := by
    rw [scanned_holding hscanned, if_neg (by simp [FileName.not_isTemporary_manifest])]
  rw [← hmanifest]
  cases outcome with
  | error error => exact houtcome.elim
  | ok found =>
    cases hholding : scanned.holding FileName.manifest with
    | nothing => exact ⟨none, rfl⟩
    | folder =>
      obtain ⟨-, error, herror⟩ := hfinds.blocked hholding
      cases herror
    | file bytes =>
      obtain ⟨manifest, hdecode, -⟩ := recorded_eq_ok.1 (hfinds.written hholding).symm
      exact ⟨some manifest, by rw [manifest?, hdecode]; rfl⟩

theorem discovers_of_opening (hu : s.Unshared) (hnothing : s.holding FileName.manifest = .nothing)
    (hopens : opening config s = (.ok (manager, segments), t)) :
    Discovers config s manager segments t ∧ t.Unshared :=
  opening_of_runs (fun result after => match result with
    | .ok (manager, segments) => Discovers config s manager segments after
    | .error _ => ∀ segments, ¬ Discoverable config s segments) (runs_discovers config hu hnothing) hopens

theorem not_discoverable_of_opening {error : Error} (hu : s.Unshared)
    (hnothing : s.holding FileName.manifest = .nothing) (hopens : opening config s = (.error error, t)) :
    ¬ Discoverable config s segments :=
  (opening_of_runs (fun result after => match result with
    | .ok (manager, segments) => Discovers config s manager segments after
    | .error _ => ∀ segments, ¬ Discoverable config s segments)
    (runs_discovers config hu hnothing) hopens).1 segments

theorem sweeps_of_opening {manifest : Manifest} {bytes : Bytes} (hu : s.Unshared)
    (hwritten : s.holding FileName.manifest = .file bytes)
    (hdecode : Manifest.decode bytes = .ok manifest)
    (hopens : opening config s = (.ok (manager, segments), t)) :
    Sweeps config manifest s manager segments t ∧ t.Unshared :=
  opening_of_runs (fun result after => match result with
    | .ok (manager, segments) => Sweeps config manifest s manager segments after
    | .error _ => ∀ segments, ¬ Openable config manifest s segments)
    (runs_sweeps config hu hwritten hdecode) hopens

/-! ## Opening again -/

/-- A directory as an opening leaves it: the manifest lists the segments, which open by what it records of
them, and tells the next generation, and nothing is left to sweep. -/
structure Settled (config : Config) (manager : Manager) (segments : List Segment) (s : Snapshot) :
    Prop where
  unshared : s.Unshared
  sync : manager.sync = config.syncWrites
  written : HoldsManifest s (Manifest.current manager.next (segments.reverse.map Segment.info))
  loaded : listed s.holding config.verifyChecksums (segments.reverse.map Segment.info) =
    .ok segments.reverse
  free : s.holding (FileName.temporary FileName.manifest) ≠ .folder
  swept : ∀ name, Stray (Manifest.current manager.next (segments.reverse.map Segment.info)) name →
    (s.holding name).withoutFile = s.holding name
  resumes : resumed (found s.names.fileNames) manager.next = manager.next

/-- **Nothing is left to do** in such a directory: an opening of it finds the same, and leaves under every
name what was there. -/
theorem Settled.opening (h : Settled config manager segments s) :
    ∃ after, opening config s = (.ok (manager, segments), after) ∧
      ∀ name, after.holding name = s.holding name := by
  obtain ⟨bytes, hencode, hwritten⟩ := h.written
  have hsweeps := opening_sweeps config h.unshared hwritten (Manifest.decode_encode hencode rfl)
  cases hopens : Manager.opening config s with
  | mk result after =>
    rw [hopens] at hsweeps
    cases result with
    | error error => exact absurd ⟨h.loaded, ⟨_, bytes, hencode⟩, h.free⟩ (hsweeps segments)
    | ok opened =>
      obtain ⟨again, opened⟩ := opened
      obtain rfl : opened = segments :=
        List.reverse_inj.1 (Except.ok.inj (hsweeps.loaded.symm.trans h.loaded))
      obtain rfl : again = manager := by
        rw [hsweeps.manager_eq, Manifest.current, h.resumes, ← h.sync]
      refine ⟨after, rfl, fun name => ?_⟩
      by_cases hmanifest : name = FileName.manifest
      · obtain ⟨bytes', hencode', hwritten'⟩ := hsweeps.written
        rw [hmanifest, hwritten', hwritten, Except.ok.inj (hencode'.symm.trans hencode)]
      · by_cases hstray : Stray (Manifest.current again.next (opened.reverse.map Segment.info)) name
        · rw [hsweeps.stray name hstray, h.swept name hstray]
        · exact hsweeps.same name hstray hmanifest

/-- The next generation stays what it is if nothing more is found. -/
theorem resumed_resumed {first again : Found} (next : UInt64)
    (hlow : ∀ generation ∈ generations first, generation.toNat < UInt64.size - 1)
    (hsub : generations again ⊆ generations first) :
    resumed again (resumed first next) = resumed first next := by
  obtain ⟨-, hupper⟩ := resumed_isGreatest next hlow
  obtain ⟨hmem, hupper'⟩ := resumed_isGreatest (resumed first next) fun generation h => hlow _ (hsub h)
  refine UInt64.toNat_inj.1 (Nat.le_antisymm ?_ (hupper' (.inr (.inl rfl))))
  rcases hmem with hone | hnext | ⟨generation, hgeneration, heq⟩
  · exact hone ▸ hupper (.inl rfl)
  · exact Nat.le_of_eq hnext
  · exact heq ▸ hupper (.inr (.inr ⟨generation, hsub hgeneration, rfl⟩))

/-- The segments that are found are those found before, if no file with such a name is new. -/
theorem generations_found_subset (h : ∀ name bytes, FileName.isTemporary name = false →
    name ≠ FileName.manifest → t.holding name = .file bytes → ∃ old, s.holding name = .file old) :
    generations (found t.names.fileNames) ⊆ generations (found s.names.fileNames) := by
  intro generation hmem
  obtain ⟨name, hname, htemporary, half, hparse⟩ := mem_generations_found_iff.1 hmem
  obtain ⟨bytes, hfile⟩ := Snapshot.mem_fileNames.1 hname
  have hmanifest : name ≠ FileName.manifest := by
    rintro rfl
    rw [FileName.parseName?_manifest] at hparse
    cases hparse
  obtain ⟨old, hold⟩ := h name bytes htemporary hmanifest hfile
  exact mem_generations_found_iff.2 ⟨name, Snapshot.mem_fileNames.2 ⟨old, hold⟩, htemporary, half, hparse⟩

/-- What a manifest does not vouch for depends on the generations that it lists. -/
theorem stray_congr {manifest manifest' : Manifest} {name : String}
    (h : manifest.segments.map SegmentMeta.generation = manifest'.segments.map SegmentMeta.generation) :
    Stray manifest name ↔ Stray manifest' name := by
  have hlisted : ∀ (other : Manifest) (generation : UInt64),
      (∀ recorded ∈ other.segments, recorded.generation ≠ generation) ↔
        generation ∉ other.segments.map SegmentMeta.generation := by
    intro other generation
    simp
  simp only [Stray, hlisted, h]

/-- **An opening of a directory with a manifest** settles it. -/
theorem Sweeps.settled {manifest : Manifest} (h : Sweeps config manifest s manager segments t)
    (hu : t.Unshared) (hlow : ∀ generation ∈ generations (found s.names.fileNames),
      generation.toNat < UInt64.size - 1) : Settled config manager segments t := by
  have hmanager := h.manager_eq
  obtain ⟨hgenerations, hlisted⟩ := listed_of_listed h.loaded
  have hstray : ∀ name,
      Stray (Manifest.current manager.next (segments.reverse.map Segment.info)) name ↔
        Stray manifest name := by
    refine fun name => stray_congr ?_
    rw [← hgenerations, Manifest.current, List.map_map]
    rfl
  have hkept : listed t.holding config.verifyChecksums (segments.reverse.map Segment.info) =
      .ok segments.reverse := by
    rw [← hlisted]
    refine listed_congr (fun recorded hmem half => h.same _ ?_ (FileName.segment_ne_manifest _ _)) _
    rw [← hstray]
    exact not_stray_listed hmem
  refine ⟨hu, by rw [hmanager], h.written, hkept, ?_, fun name hname => ?_, ?_⟩
  · rw [h.stray _ (.inl FileName.isTemporary_temporary_manifest), Ne, Holding.withoutFile_eq_folder]
    exact h.free
  · rw [h.stray name ((hstray name).1 hname), Holding.withoutFile_withoutFile]
  · rw [hmanager]
    refine resumed_resumed manifest.next hlow (generations_found_subset ?_)
    intro name bytes _ hname hfile
    by_cases hswept : Stray manifest name
    · rw [h.stray name hswept] at hfile
      cases hholding : s.holding name <;> rw [hholding] at hfile <;> cases hfile
    · exact ⟨bytes, h.same name hswept hname ▸ hfile⟩

/-- **An opening of a directory without a manifest** settles it as well. -/
theorem Discovers.settled (h : Discovers config s manager segments t) (hu : t.Unshared)
    (hlow : ∀ generation ∈ generations (found s.names.fileNames),
      generation.toNat < UInt64.size - 1) : Settled config manager segments t := by
  have hmanager := h.manager_eq
  obtain ⟨hgenerations, hlisted⟩ := listed_of_discovered h.loaded
  have hsegment : ∀ half generation, t.holding (FileName.segment half generation) =
      s.holding (FileName.segment half generation) := fun half generation =>
    h.same _ (FileName.not_isTemporary_segment _ _) (FileName.segment_ne_manifest _ _)
  refine ⟨hu, by rw [hmanager], h.written, ?_, ?_, ?_, ?_⟩
  · rw [← hlisted]
    exact listed_congr (fun recorded _ half => hsegment half _) _
  · rw [h.temporary _ FileName.isTemporary_temporary_manifest, Ne, Holding.withoutFile_eq_folder]
    exact h.free
  · rintro name (htemporary | ⟨half, generation, rfl, hunlisted⟩)
    · rw [h.temporary name htemporary, Holding.withoutFile_withoutFile]
    · -- A file of that name would have been found, and its segment is listed.
      rw [hsegment]
      cases hholding : s.holding (FileName.segment half generation) with
      | file bytes =>
        have hfound := mem_generations_found (Snapshot.mem_fileNames.2 ⟨bytes, hholding⟩)
        rw [← hgenerations] at hfound
        obtain ⟨segment, hmem, hsame⟩ := List.mem_map.1 hfound
        exact absurd hsame (hunlisted _ (List.mem_map_of_mem hmem))
      | _ => rfl
  · rw [hmanager]
    refine resumed_resumed 0 hlow (generations_found_subset ?_)
    intro name bytes htemporary hname hfile
    exact ⟨bytes, h.same name htemporary hname ▸ hfile⟩

/-- **An opening settles a directory**, whatever it holds. -/
theorem opening_settles (hu : s.Unshared)
    (hlow : ∀ name content half generation, s.holding name = .file content →
      FileName.parseName? name = some (generation, half) → generation.toNat < UInt64.size - 1)
    (hopens : opening config s = (.ok (manager, segments), t)) : Settled config manager segments t := by
  have hlow' : ∀ generation ∈ generations (found s.names.fileNames),
      generation.toNat < UInt64.size - 1 := by
    intro generation hmem
    obtain ⟨name, hname, -, half, hparse⟩ := mem_generations_found_iff.1 hmem
    obtain ⟨content, hfile⟩ := Snapshot.mem_fileNames.1 hname
    exact hlow name content half generation hfile hparse
  obtain ⟨_ | manifest, hmanifest⟩ := manifest?_of_opening hu hopens
  · obtain ⟨hdiscovers, hu'⟩ := discovers_of_opening hu (manifest?_eq_none hmanifest) hopens
    exact hdiscovers.settled hu' hlow'
  · obtain ⟨bytes, hwritten, hdecode⟩ := manifest?_eq_some.1 hmanifest
    obtain ⟨hsweeps, hu'⟩ := sweeps_of_opening hu hwritten hdecode hopens
    exact hsweeps.settled hu' hlow'

/-- **Opening is idempotent.** Whatever a directory holds, if an opening of it succeeds then an opening of
what that leaves succeeds as well: with the same segments in the same order, so the same records of them,
with the same next generation, and without a change under any name. -/
theorem recover_idempotent (config : Config) (hu : s.Unshared)
    (hlow : ∀ name content half generation, s.holding name = .file content →
      FileName.parseName? name = some (generation, half) → generation.toNat < UInt64.size - 1)
    (hopens : opening config s = (.ok (manager, segments), t)) :
    ∃ again, opening config t = (.ok (manager, segments), again) ∧
      ∀ name, again.holding name = t.holding name :=
  (opening_settles hu hlow hopens).opening

/-- A directory with a segment that no manifest lists. -/
def undocumented : Snapshot :=
  { flushed with names := flushed.names.erase FileName.manifest }

/-- The segment in that directory is found by name, and its checksum computed; opened again, it is found
by the manifest, with that checksum. -/
theorem recover_idempotent_discovered : ∃ manager segment after again,
    undocumented.holding FileName.manifest = .nothing ∧
      opening { verifyChecksums := true } undocumented = (.ok (manager, [segment]), after) ∧
      segment.dataCrc = some 3332814365 ∧ after.holding FileName.manifest ≠ .nothing ∧
      opening { verifyChecksums := true } after = (.ok (manager, [segment]), again) ∧
      ∀ name, again.holding name = after.holding name := by
  obtain ⟨bytes, hbytes⟩ : ∃ bytes, flushed.holding FileName.manifest = .file bytes :=
    Snapshot.mem_fileNames.1 (by decide +kernel)
  obtain ⟨names, hunlink, hu, -⟩ := Snapshot.unlink_of_file unshared_flushed hbytes
  have hnames : names = flushed.names.erase FileName.manifest := by
    have herased : flushed.names.unlink FileName.manifest =
        .ok (flushed.names.erase FileName.manifest) := by
      obtain ⟨number, hget, -⟩ := Snapshot.holding_eq_file.1 hbytes
      simp [Directory.unlink, hget]
    exact Except.ok.inj (hunlink.symm.trans herased)
  rw [hnames] at hu
  have hlow : ∀ name content half generation, undocumented.holding name = .file content →
      FileName.parseName? name = some (generation, half) → generation.toNat < UInt64.size - 1 :=
    parsed_lt_of_fileNames (by decide +kernel)
  have hfound : (opening { verifyChecksums := true } undocumented).1.toOption.any (fun opened =>
      opened.2.map Segment.dataCrc = [some 3332814365]) = true := by decide +kernel
  have hwritten : (opening { verifyChecksums := true } undocumented).2.holding FileName.manifest ≠
      .nothing := by decide +kernel
  cases hopens : opening { verifyChecksums := true } undocumented with
  | mk result after =>
    rw [hopens] at hfound hwritten
    cases result with
    | error error => cases hfound
    | ok opened =>
      obtain ⟨manager, segments⟩ := opened
      obtain ⟨segment, rfl, hcrc⟩ := List.map_eq_singleton_iff.1 (of_decide_eq_true hfound)
      obtain ⟨again, hagain, hsame⟩ := recover_idempotent _ hu hlow hopens
      exact ⟨manager, segment, after, again, by decide +kernel, rfl, hcrc, hwritten, hagain, hsame⟩

end Manager

end LsmTree
