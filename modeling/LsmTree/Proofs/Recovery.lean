import LsmTree.Proofs.Committed

/-!
# Opening a directory

Opening removes temporary files, opens the segments that the manifest lists, removes the others and writes
the manifest anew. What is committed it finds and leaves as it is:

* **`Recoverable`** — a directory with a manifest, or one in which no file is finished yet;
* **`Manager.runs_scan`**, **`Manager.runs_committed`** — the parts of an opening;
* **`Manager.runs_recover`** — an opening succeeds with the segments that are committed, unless a directory
  is where the manifest is to be written; a crash in it leaves them as they are.
-/

namespace LsmTree

open Snapshot (Within Restored Removed)

/-- A committed directory, or one in which no file is finished yet. -/
def Recoverable (recorded : UInt64) (segments : List Segment) (snapshot : Snapshot) : Prop :=
  Committed snapshot recorded segments ∨
    (recorded = 0 ∧ segments = [] ∧ snapshot.Unshared ∧
      ∀ name bytes, snapshot.holding name = .file bytes → FileName.isTemporary name = true)

theorem Recoverable.unshared {recorded : UInt64} {segments : List Segment} {snapshot : Snapshot}
    (h : Recoverable recorded segments snapshot) : snapshot.Unshared := by
  rcases h with h | ⟨-, -, hu, -⟩
  · exact h.unshared
  · exact hu

theorem Kept.recoverable {recorded next : UInt64} {segments : List Segment} {snapshot : Snapshot}
    (h : Kept recorded next segments snapshot) : Recoverable recorded segments snapshot :=
  .inl h.committed

namespace Manager

variable {start : Disk}

/-! ## Finding files by name -/

theorem mem_insertGeneration {generation other : UInt64} {sorted : List UInt64} :
    other ∈ insertGeneration generation sorted ↔ other = generation ∨ other ∈ sorted := by
  induction sorted with
  | nil => simp [insertGeneration]
  | cons head rest ih =>
    rw [insertGeneration]
    split
    · simp
    · split
      · next hsame => simp [hsame]
      · rw [List.mem_cons, ih, List.mem_cons]
        grind

theorem mem_generations {found : Found} {generation : UInt64} :
    generation ∈ generations found ↔ ∃ half, (generation, half) ∈ found := by
  induction found with
  | nil => simp [generations]
  | cons file rest ih =>
    rw [generations, List.foldr_cons, mem_insertGeneration, ← generations, ih]
    constructor
    · rintro (rfl | ⟨half, hmem⟩)
      · exact ⟨file.2, by simp⟩
      · exact ⟨half, by simp [hmem]⟩
    · rintro ⟨half, hmem⟩
      rcases List.mem_cons.1 hmem with rfl | hmem
      · exact .inl rfl
      · exact .inr ⟨half, hmem⟩

theorem mem_generations_found {names : List String} {half : Half} {generation : UInt64}
    (h : FileName.segment half generation ∈ names) : generation ∈ generations (found names) := by
  refine mem_generations.2 ⟨half, List.mem_filterMap.2 ⟨_, List.mem_filter.2 ⟨h, ?_⟩, ?_⟩⟩
  · simp [FileName.not_isTemporary_segment]
  · exact FileName.parseName?_segment half generation

/-- In a tidy directory only generations that were handed out are found. -/
theorem lt_of_mem_generations {limit : Nat} {snapshot : Snapshot} (h : Tidy limit snapshot)
    {generation : UInt64} (hmem : generation ∈ generations (found snapshot.names.fileNames)) :
    generation.toNat < limit := by
  obtain ⟨half, hfound⟩ := mem_generations.1 hmem
  obtain ⟨name, hname, hparse⟩ := List.mem_filterMap.1 hfound
  obtain ⟨hfile, htemporary⟩ := List.mem_filter.1 hname
  have htemporary : FileName.isTemporary name = false := by simpa using htemporary
  obtain ⟨bytes, hholding⟩ := Snapshot.mem_fileNames.1 hfile
  rcases h name bytes hholding with rfl | rfl | ⟨other, hlt, hother⟩
  · rw [FileName.parseName?_manifest] at hparse
    cases hparse
  · rw [FileName.isTemporary_temporary_manifest] at htemporary
    cases htemporary
  · obtain ⟨half', rfl | rfl⟩ := FileName.mem_ofGeneration.1 hother
    · rw [FileName.parseName?_segment] at hparse
      cases hparse
      exact hlt
    · rw [FileName.isTemporary_temporary_segment] at htemporary
      cases htemporary

/-! ## The parts of an opening -/

theorem runs_unlinkAll (names : List String) (hu : start.snapshot.Unshared) :
    Runs (unlinkAll names) start
      (fun _ after => Removed names start.snapshot after.snapshot) (Within names start.snapshot) := by
  induction names generalizing start with
  | nil => exact Runs.pure _ (.nil hu) (.refl _ hu)
  | cons name rest ih =>
    refine Runs.bind ((Runs.unlink hu).within (.refl _ hu)
      (by simp)) ?_
    rintro ⟨⟩ middle - ⟨hholding, hmiddle, hwithin⟩
    have hfirst : Removed [name] start.snapshot middle.snapshot := by
      refine ⟨hmiddle.unshared, fun other => ?_⟩
      rw [hholding]
      by_cases hother : other = name <;> simp [hother]
    refine ((ih hmiddle.unshared).within hwithin (List.subset_cons_self _ _)).mono ?_ fun _ ht => ht
    rintro ⟨⟩ after ⟨hrest, -, -⟩ -
    exact hfirst.trans hrest

/-- **The scan** removes temporary files and finds the segment files by name. -/
theorem runs_scan (hu : start.snapshot.Unshared) :
    Runs scan.run start
      (fun result after => result = .ok (found start.snapshot.names.fileNames) ∧
        Removed (leftovers start.snapshot.names.fileNames) start.snapshot after.snapshot)
      (Within (leftovers start.snapshot.names.fileNames) start.snapshot) := by
  refine Runs.andThen (Runs.fileNames.monoCrash ?_) ?_ ?_
  · rintro t rfl
    exact .refl _ hu
  · rintro names after - ⟨rfl, hnames⟩
    cases hnames
    refine Runs.liftThen (runs_unlinkAll _ hu).withCrash ?_
    rintro ⟨⟩ last - ⟨hremoved, hwithin⟩
    exact Runs.pure _ ⟨rfl, hremoved⟩ hwithin
  · rintro error after ⟨-, hnames⟩
    cases hnames

/-- What opening a segment that counts as committed gives: its files must be there. -/
def loaded (holding : String → Holding) (generation : UInt64) (recorded : Option SegmentMeta)
    (verified : Bool) : Except Error Segment :=
  (Segment.opened holding generation recorded verified).mapError fun
    | .io .noEntry => .init (.missingFiles generation)
    | error => error

/-- **Opening a committed segment** changes nothing, and judges the files that are there. -/
theorem runs_loadCommitted (generation : UInt64) (recorded : Option SegmentMeta) (verified : Bool) :
    Runs (loadCommitted generation recorded verified).run start
      (fun result after => after = start ∧
        result = loaded start.snapshot.holding generation recorded verified)
      (fun t => t = start.snapshot) := by
  refine Runs.tryCatch (Segment.runs_load generation recorded verified) ?_ ?_
  · rintro segment after ⟨rfl, hresult⟩
    rw [loaded, ← hresult]
    exact ⟨rfl, rfl⟩
  · rintro error after ⟨rfl, hresult⟩
    rw [loaded, ← hresult]
    split
    · exact Runs.pure _ ⟨rfl, rfl⟩ rfl
    · next hother =>
      refine Runs.pure _ ⟨rfl, ?_⟩ rfl
      simp only [Except.mapError]

/-- What opening the segments of a list gives. -/
def listed (holding : String → Holding) (verified : Bool) (metas : List SegmentMeta) :
    Except Error (List Segment) :=
  metas.mapM fun recorded => loaded holding recorded.generation (some recorded) verified

/-- **The segments listed** are opened one after the other; nothing is changed. -/
theorem runs_loadListed (verified : Bool) (metas : List SegmentMeta) :
    Runs (loadListed verified metas).run start
      (fun result after => after = start ∧ result = listed start.snapshot.holding verified metas)
      (fun t => t = start.snapshot) := by
  induction metas with
  | nil => exact Runs.pure _ ⟨rfl, rfl⟩ rfl
  | cons first rest ih =>
    rw [listed, List.mapM_cons, ← listed]
    refine Runs.andThen (runs_loadCommitted _ _ verified) ?_ ?_
    · rintro head after - ⟨rfl, hhead⟩
      rw [← hhead]
      refine Runs.andThen ih ?_ ?_
      · rintro tail after' - ⟨rfl, htail⟩
        rw [← htail]
        exact Runs.pure _ ⟨rfl, rfl⟩ rfl
      · rintro error after' ⟨rfl, htail⟩
        rw [← htail]
        exact ⟨rfl, rfl⟩
    · rintro error after ⟨rfl, hhead⟩
      rw [← hhead]
      exact ⟨rfl, rfl⟩

/-- Only the names of the files of the segments listed count. -/
theorem listed_congr {holding other : String → Holding} {metas : List SegmentMeta}
    (hsame : ∀ recorded ∈ metas, ∀ half, holding (FileName.segment half recorded.generation) =
      other (FileName.segment half recorded.generation)) (verified : Bool) :
    listed holding verified metas = listed other verified metas := by
  induction metas with
  | nil => rfl
  | cons first rest ih =>
    have hrest := ih fun recorded hmem => hsame recorded (List.mem_cons_of_mem _ hmem)
    have hfirst := Segment.opened_congr (hsame first List.mem_cons_self) (some first) verified
    unfold listed loaded at hrest ⊢
    rw [List.mapM_cons, List.mapM_cons, hrest, hfirst]

/-- Segments that are stored are opened as they are. -/
theorem listed_of_stored {s : Snapshot} {segments : List Segment}
    (hstored : ∀ segment ∈ segments, Stored s segment) (verified : Bool) :
    listed s.holding verified (segments.map Segment.info) = .ok segments := by
  induction segments with
  | nil => rfl
  | cons segment others ih =>
    have hhead : loaded s.holding segment.generation (some segment.info) verified = .ok segment := by
      rw [loaded, (hstored segment List.mem_cons_self).opened verified]
      rfl
    have htail := ih fun other hmem => hstored other (List.mem_cons_of_mem _ hmem)
    unfold listed at htail ⊢
    rw [List.map_cons, List.mapM_cons, htail]
    show (loaded s.holding segment.generation (some segment.info) verified >>= _) = _
    rw [hhead]
    rfl

/-- What opening a segment found by name gives: both of its files must have been found. -/
def sought (holding : String → Holding) (verified : Bool) (found : Found) (generation : UInt64) :
    Except Error Segment :=
  match missingHalf? found generation with
  | some half => .error (.corrupt generation (.missingHalf half))
  | none => loaded holding generation none verified

/-- What opening all segments found by name gives, oldest first. -/
def discovered (holding : String → Holding) (verified : Bool) (found : Found) :
    Except Error (List Segment) :=
  (generations found).mapM (sought holding verified found)

/-- **The segments found by name** are opened one after the other; nothing is changed. -/
theorem runs_loadFound (verified : Bool) (found : Found) (generations : List UInt64) :
    Runs (loadFound verified found generations).run start
      (fun result after => after = start ∧
        result = generations.mapM (sought start.snapshot.holding verified found))
      (fun t => t = start.snapshot) := by
  induction generations with
  | nil => exact Runs.pure _ ⟨rfl, rfl⟩ rfl
  | cons generation rest ih =>
    cases hmissing : missingHalf? found generation with
    | some half =>
      rw [loadFound, List.mapM_cons, sought, hmissing]
      exact Runs.pure _ ⟨rfl, rfl⟩ rfl
    | none =>
      rw [loadFound, List.mapM_cons, sought, hmissing]
      refine Runs.andThen (runs_loadCommitted _ _ verified) ?_ ?_
      · rintro head after - ⟨rfl, hhead⟩
        dsimp only
        rw [← hhead]
        refine Runs.andThen ih ?_ ?_
        · rintro tail after' - ⟨rfl, htail⟩
          rw [← htail]
          exact Runs.pure _ ⟨rfl, rfl⟩ rfl
        · rintro error after' ⟨rfl, htail⟩
          rw [← htail]
          exact ⟨rfl, rfl⟩
      · rintro error after ⟨rfl, hhead⟩
        dsimp only
        rw [← hhead]
        exact ⟨rfl, rfl⟩

/-- What reading a file that may be missing gives, by what its name holds. -/
def octets? : Holding → Except Error (Option Bytes)
  | .nothing => .ok none
  | .folder => .error (.io .isDirectory)
  | .file bytes => .ok (some bytes)

/-- What reading the manifest gives, by what its name holds. -/
def manifest? : Holding → Except Error (Option Manifest)
  | .nothing => .ok none
  | .folder => .error (.io .isDirectory)
  | .file bytes => some <$> Manifest.decode bytes

theorem manifest?_eq_some {holding : Holding} {manifest : Manifest} :
    manifest? holding = .ok (some manifest) ↔
      ∃ bytes, holding = .file bytes ∧ Manifest.decode bytes = .ok manifest := by
  cases holding with
  | file bytes => cases hdecode : Manifest.decode bytes <;> simp [manifest?, hdecode]
  | _ => simp [manifest?]

theorem manifest?_eq_none {holding : Holding} (h : manifest? holding = .ok none) :
    holding = .nothing := by
  cases holding with
  | file bytes => cases hdecode : Manifest.decode bytes <;> simp [manifest?, hdecode] at h
  | folder => cases h
  | nothing => rfl

/-- **Reading the manifest** changes nothing, and judges the file that is there. -/
theorem runs_loadManifest :
    Runs Manifest.load.run start
      (fun result after =>
        after = start ∧ result = manifest? (start.snapshot.holding FileName.manifest))
      (fun t => t = start.snapshot) := by
  have hfound : Runs (some <$> Disk.read FileName.manifest : DiskM (Option Bytes)).run start
      (fun result after => after = start ∧
        result = some <$> (start.snapshot.holding FileName.manifest).octets)
      (fun t => t = start.snapshot) := by
    rw [ExceptT.run_map]
    refine Runs.map (Runs.read.mono ?_ fun _ ht => ht)
    rintro result after ⟨rfl, rfl⟩ -
    exact ⟨rfl, rfl⟩
  refine Runs.andThen (?missing : Runs _ start (fun result after =>
    after = start ∧ result = octets? (start.snapshot.holding FileName.manifest)) _) ?_ ?_
  case missing =>
    refine Runs.tryCatch hfound ?_ ?_
    · rintro bytes after ⟨rfl, hbytes⟩
      refine ⟨rfl, ?_⟩
      cases hholding : after.snapshot.holding FileName.manifest <;> rw [hholding] at hbytes <;> cases hbytes
      rfl
    · rintro error after ⟨rfl, herror⟩
      cases hholding : after.snapshot.holding FileName.manifest <;> rw [hholding] at herror <;> cases herror
      · exact Runs.pure _ ⟨rfl, rfl⟩ rfl
      · exact Runs.pure _ ⟨rfl, rfl⟩ rfl
  · rintro bytes after - ⟨rfl, hbytes⟩
    cases hholding : after.snapshot.holding FileName.manifest <;> rw [hholding] at hbytes <;> cases hbytes
    · exact Runs.pure _ ⟨rfl, rfl⟩ rfl
    · next content =>
      dsimp only
      rw [ExceptT.run_map]
      exact Runs.map (Runs.pure _ ⟨rfl, rfl⟩ rfl)
  · rintro error after ⟨rfl, herror⟩
    refine ⟨rfl, ?_⟩
    cases hholding : after.snapshot.holding FileName.manifest <;> rw [hholding] at herror <;> cases herror
    rfl

theorem mem_uncommitted {found : Found} {recorded generation : UInt64} {segments : List Segment} :
    generation ∈ uncommitted (Manifest.current recorded (segments.reverse.map Segment.info)) found ↔
      generation ∈ generations found ∧ ∀ segment ∈ segments, segment.generation ≠ generation := by
  simp [uncommitted, Manifest.current, Segment.info]

/-- What the octets of a manifest lead to: the segments that it lists, and the next generation. -/
def recorded (holding : String → Holding) (verified : Bool) (bytes : Bytes) :
    Except Error (List Segment × UInt64) := do
  let manifest ← Manifest.decode bytes
  let segments ← listed holding verified manifest.segments
  return (segments, manifest.next)

theorem recorded_eq_ok {holding : String → Holding} {verified : Bool} {bytes : Bytes}
    {segments : List Segment} {next : UInt64} :
    recorded holding verified bytes = .ok (segments, next) ↔
      ∃ manifest, Manifest.decode bytes = .ok manifest ∧
        listed holding verified manifest.segments = .ok segments ∧ manifest.next = next := by
  unfold recorded
  cases Manifest.decode bytes with
  | error error =>
    constructor
    · intro h
      cases h
    · rintro ⟨manifest, h, -⟩
      cases h
  | ok manifest =>
    show (listed holding verified manifest.segments >>= _) = _ ↔ _
    cases hlisted : listed holding verified manifest.segments with
    | error error =>
      constructor
      · intro h
        cases h
      · rintro ⟨_, ⟨⟩, h, -⟩
        rw [hlisted] at h
        cases h
    | ok opened =>
      constructor
      · intro h
        cases h
        exact ⟨manifest, rfl, hlisted, rfl⟩
      · rintro ⟨_, ⟨⟩, h, rfl⟩
        rw [hlisted] at h
        cases h
        rfl

/-- A manifest that is there says which segments are committed, and once they are open the files of all
others are removed. Without a manifest the segments are those found by name, and nothing is changed; a
directory in its place is an error. -/
structure Finds (verified : Bool) (found : Found) (s : Snapshot)
    (result : Except Error (List Segment × UInt64)) (t : Snapshot) : Prop where
  written : ∀ {bytes}, s.holding FileName.manifest = .file bytes →
    result = recorded s.holding verified bytes
  removed : ∀ {bytes manifest opened}, s.holding FileName.manifest = .file bytes →
    Manifest.decode bytes = .ok manifest → result = .ok opened →
    Removed ((uncommitted manifest found).flatMap FileName.halves) s t
  unwritten : s.holding FileName.manifest = .nothing → t = s ∧
    result = (fun segments => (segments, 0)) <$> discovered s.holding verified found
  blocked : s.holding FileName.manifest = .folder → t = s ∧ ∃ error, result = .error error

section Finds

variable {verified : Bool} {found : Found} {s t : Snapshot} {result : Except Error (List Segment × UInt64)}
variable {manifest : Manifest} {bytes : Bytes}

/-- Without a manifest and without segment files none are found, or a directory is in the place of the
manifest. -/
theorem Finds.fresh (h : Finds verified found s result t)
    (hnone : ∀ bytes, s.holding FileName.manifest ≠ .file bytes) (hfound : generations found = []) :
    t = s ∧
      (result = .ok ([], 0) ∨ s.holding FileName.manifest = .folder ∧ ∃ error, result = .error error) := by
  cases hholding : s.holding FileName.manifest with
  | file bytes => exact absurd hholding (hnone bytes)
  | folder =>
    obtain ⟨hsame, herror⟩ := h.blocked hholding
    exact ⟨hsame, .inr ⟨rfl, herror⟩⟩
  | nothing =>
    obtain ⟨hsame, hresult⟩ := h.unwritten hholding
    rw [discovered, hfound] at hresult
    exact ⟨hsame, .inl hresult⟩

/-- Without a manifest it matters which of the segments found by name open. -/
theorem Finds.of_nothing (hholding : s.holding FileName.manifest = .nothing)
    (hresult : result = (fun segments => (segments, 0)) <$> discovered s.holding verified found) :
    Finds verified found s result s := by
  refine ⟨fun h => ?_, fun h => ?_, fun _ => ⟨rfl, hresult⟩, fun h => ?_⟩
  all_goals
    rw [hholding] at h
    cases h

/-- With a manifest that can be read it matters which of the segments that it lists open. -/
theorem Finds.of_decode (hholding : s.holding FileName.manifest = .file bytes)
    (hdecode : Manifest.decode bytes = .ok manifest)
    (hresult : result = (fun segments => (segments, manifest.next)) <$>
      listed s.holding verified manifest.segments)
    (hremoved : ∀ opened, result = .ok opened →
      Removed ((uncommitted manifest found).flatMap FileName.halves) s t) :
    Finds verified found s result t := by
  refine ⟨fun hholding' => ?_, fun hholding' hdecode' => ?_, fun hnothing => ?_, fun hfolder => ?_⟩
  · cases hholding.symm.trans hholding'
    rw [hresult, recorded, hdecode]
    rfl
  · cases hholding.symm.trans hholding'
    cases hdecode.symm.trans hdecode'
    exact hremoved _
  · cases hholding.symm.trans hnothing
  · cases hholding.symm.trans hfolder

/-- A manifest that cannot be read is answered with the reason. -/
theorem Finds.of_error {error : Error} (hread : manifest? (s.holding FileName.manifest) = .error error) :
    Finds verified found s (.error error) s := by
  refine ⟨fun h => ?_, fun _ _ h => (nomatch h), fun h => ?_, fun _ => ⟨rfl, error, rfl⟩⟩
  · rw [h, manifest?] at hread
    rw [recorded]
    cases hdecode : Manifest.decode _ <;> rw [hdecode] at hread <;> cases hread
    rfl
  · rw [h] at hread
    cases hread

/-- The segments that are committed are found and the files of all others removed. -/
theorem Finds.committed (h : Finds verified found s result t) {next : UInt64} {segments : List Segment}
    (hs : Committed s next segments) :
    result = .ok (segments.reverse, next) ∧
      Removed ((uncommitted (Manifest.current next (segments.reverse.map Segment.info))
        found).flatMap FileName.halves) s t := by
  obtain ⟨bytes, hencode, hwritten⟩ := hs.written
  have hdecode := Manifest.decode_encode hencode rfl
  have hstored : ∀ segment ∈ segments.reverse, Stored s segment := fun segment hmem =>
    hs.stored segment (List.mem_reverse.1 hmem)
  have hresult : result = .ok (segments.reverse, next) :=
    (h.written hwritten).trans (recorded_eq_ok.2 ⟨_, hdecode, listed_of_stored hstored verified, rfl⟩)
  exact ⟨hresult, h.removed hwritten hdecode hresult⟩

end Finds

/-- The names found that a manifest does not list, by what is under the name of the manifest. -/
def unlisted (found : Found) : Holding → List String
  | .file bytes => (Manifest.decode bytes).toOption.elim [] fun manifest =>
      (uncommitted manifest found).flatMap FileName.halves
  | _ => []

theorem unlisted_of_decode {found : Found} {bytes : Bytes} {manifest : Manifest}
    (h : Manifest.decode bytes = .ok manifest) :
    unlisted found (.file bytes) = (uncommitted manifest found).flatMap FileName.halves := by
  rw [unlisted, h]
  rfl

theorem unlisted_nil (holding : Holding) : unlisted [] holding = [] := by
  cases holding with
  | file bytes =>
    cases hdecode : Manifest.decode bytes with
    | error error => rw [unlisted, hdecode]; rfl
    | ok manifest => exact unlisted_of_decode hdecode
  | _ => rfl

theorem mem_unlisted {found : Found} {holding : Holding} {name : String}
    (h : name ∈ unlisted found holding) :
    ∃ generation ∈ generations found, name ∈ FileName.halves generation := by
  cases holding with
  | file bytes =>
    cases hdecode : Manifest.decode bytes with
    | error error =>
      rw [unlisted, hdecode] at h
      cases h
    | ok manifest =>
      rw [unlisted_of_decode hdecode] at h
      obtain ⟨generation, hmem, hname⟩ := List.mem_flatMap.1 h
      exact ⟨generation, (List.mem_filter.1 hmem).1, hname⟩
  | _ => cases h

/-- **The committed segments** are found as the manifest lists them, and the files of all others are
removed. -/
theorem runs_committed (verified : Bool) (found : Found) (hu : start.snapshot.Unshared) :
    Runs (committed verified found).run start
      (fun result after => Finds verified found start.snapshot result after.snapshot)
      (Within (unlisted found (start.snapshot.holding FileName.manifest)) start.snapshot) := by
  have hload : Runs Manifest.load.run start _
      (Within (unlisted found (start.snapshot.holding FileName.manifest)) start.snapshot) :=
    runs_loadManifest.monoCrash fun t ht => .of_eq _ hu ht
  refine Runs.andThen hload ?_ ?_
  · rintro (_ | manifest) after - ⟨rfl, hread⟩
    · -- No manifest was read, so nothing is under its name.
      have hnothing := manifest?_eq_none hread.symm
      refine Runs.andThen ((runs_loadFound verified found _).monoCrash
        fun t ht => .of_eq _ hu ht) ?_ ?_
      · rintro segments after' - ⟨rfl, hfound⟩
        refine Runs.pure _ (.of_nothing hnothing ?_) (.refl _ hu)
        rw [discovered, ← hfound]
        rfl
      · rintro error after' ⟨rfl, hfound⟩
        refine .of_nothing hnothing ?_
        rw [discovered, ← hfound]
        rfl
    · obtain ⟨bytes, hholding, hdecode⟩ := manifest?_eq_some.1 hread.symm
      refine Runs.andThen ((runs_loadListed verified manifest.segments).monoCrash
        fun t ht => .of_eq _ hu ht) ?_ ?_
      · rintro opened after' - ⟨rfl, hlisted⟩
        rw [hholding, unlisted_of_decode hdecode]
        refine Runs.liftThen ((runs_removeAll _ hu).within (.refl _ hu) (List.Subset.refl _)) ?_
        rintro ⟨⟩ last - ⟨hremoved, -, hwithin⟩
        refine Runs.pure _ (.of_decode hholding hdecode ?_ fun _ _ => hremoved) hwithin
        rw [← hlisted]
        rfl
      · rintro error after' ⟨rfl, hlisted⟩
        refine .of_decode hholding hdecode ?_ fun _ h => nomatch h
        rw [← hlisted]
        rfl
  · rintro error after ⟨rfl, hread⟩
    exact .of_error hread.symm

/-! ## The whole of it -/

/-- The generation that is handed out next, by the manifest and the files found. -/
def resumed (found : Found) (next : UInt64) : UInt64 :=
  max (max next ((generations found).getLast?.getD 0 + 1)) 1

/-- What an opening does after the scan, which left `s`: it finds segments, which leaves `t`, and writes
the manifest anew. -/
structure Recovers (config : Config) (found : Found) (s : Snapshot)
    (result : Except Error (Manager × List Segment)) (after : Snapshot) : Prop where
  parts : ∃ t outcome, t.Unshared ∧ Finds config.verifyChecksums found s outcome t ∧
    match outcome, result with
    | .ok (segments, next), .ok (manager, opened) =>
      manager = ⟨config.syncWrites, resumed found next⟩ ∧ opened = segments.reverse ∧
        Manifest.Installed (Manifest.current manager.next (opened.reverse.map Segment.info)) t after
    | .ok (segments, next), .error _ =>
      Restored [FileName.temporary FileName.manifest] t after ∧
        ((∃ error, (Manifest.current (resumed found next)
            (segments.reverse.reverse.map Segment.info)).encode = .error error) ∨
          t.holding (FileName.temporary FileName.manifest) = .folder ∨
          t.holding FileName.manifest = .folder)
    | .error _, .error _ => after = t
    | .error _, .ok _ => False

/-- What an opening of a directory passes through: it removes temporary files, then the segments that are
not listed, and then it stores the manifest. -/
inductive Midway (config : Config) (start t : Snapshot) : Prop
  | scanning (h : Within (leftovers start.names.fileNames) start t)
  | sweeping {s : Snapshot} (hscanned : Removed (leftovers start.names.fileNames) start s)
      (h : Within (unlisted (found start.names.fileNames) (s.holding FileName.manifest)) s t)
  | storing {s u : Snapshot} {segments : List Segment} {next : UInt64}
      (hscanned : Removed (leftovers start.names.fileNames) start s)
      (hswept : Within (unlisted (found start.names.fileNames) (s.holding FileName.manifest)) s u)
      (hfinds : Finds config.verifyChecksums (found start.names.fileNames) s (.ok (segments, next)) u)
      (h : Within [FileName.temporary FileName.manifest] u t ∨ Manifest.Installed
        (Manifest.current (resumed (found start.names.fileNames) next)
          (segments.reverse.reverse.map Segment.info)) u t)

theorem Midway.unshared {config : Config} {s t : Snapshot} (h : Midway config s t) : t.Unshared := by
  cases h with
  | scanning h => exact h.unshared
  | sweeping _ h => exact h.unshared
  | storing _ _ _ h => exact h.elim Within.unshared Manifest.Installed.unshared

/-- The parts of an opening, one after the other. -/
theorem runs_parts (config : Config) (hu : start.snapshot.Unshared) :
    Runs (recover config).run start
      (fun result after => ∃ s, Removed (leftovers start.snapshot.names.fileNames) start.snapshot s ∧
        Recovers config (found start.snapshot.names.fileNames) s result after.snapshot)
      (Midway config start.snapshot) := by
  refine Runs.andThen ((runs_scan hu).monoCrash fun t ht => .scanning ht) ?_ ?_
  · rintro names disk₁ - ⟨hnames, hremoved⟩
    cases hnames
    refine Runs.andThen ((runs_committed config.verifyChecksums _
      hremoved.unshared).withCrash.monoCrash fun t ht => .sweeping hremoved ht) ?_ ?_
    · rintro ⟨segments, next⟩ disk₂ - ⟨hfinds, hwithin⟩
      let manager : Manager := ⟨config.syncWrites, resumed (found start.snapshot.names.fileNames) next⟩
      refine Runs.andThen ((Manifest.runs_store (Manifest.current manager.next
        (segments.reverse.reverse.map Segment.info)) hwithin.unshared).monoCrash
        fun t ht => .storing hremoved hwithin hfinds ht) ?_ ?_
      · rintro ⟨⟩ last - hinstalled
        refine Runs.pure _ ⟨disk₁.snapshot, hremoved, disk₂.snapshot, .ok (segments, next),
          hwithin.unshared, hfinds, rfl, rfl, hinstalled⟩ ?_
        exact .storing hremoved hwithin hfinds (.inr hinstalled)
      · rintro error last hrestored
        exact ⟨disk₁.snapshot, hremoved, disk₂.snapshot, .ok (segments, next), hwithin.unshared,
          hfinds, hrestored⟩
    · rintro error disk₂ ⟨hfinds, hwithin⟩
      exact ⟨disk₁.snapshot, hremoved, disk₂.snapshot, .error error, hwithin.unshared, hfinds, rfl⟩
  · rintro error after ⟨hnames, -⟩
    cases hnames

end Manager

/-- An opening of the directory finds the given segments, and no name in it is past the limit. -/
def Survives (limit : Nat) (segments : List Segment) (snapshot : Snapshot) : Prop :=
  ∃ recorded, Recoverable recorded segments snapshot ∧ recorded.toNat ≤ limit ∧ Tidy limit snapshot

theorem Survives.mono {limit more : Nat} {segments : List Segment} {snapshot : Snapshot}
    (h : Survives limit segments snapshot) (hle : limit ≤ more) : Survives more segments snapshot := by
  obtain ⟨recorded, hrecoverable, hrecorded, htidy⟩ := h
  exact ⟨recorded, hrecoverable, Nat.le_trans hrecorded hle, htidy.mono hle⟩

/-- The files of a directory are those of the manifest and of the given segments. -/
def Clean (segments : List Segment) (snapshot : Snapshot) : Prop :=
  ∀ name bytes, snapshot.holding name = .file bytes → name = FileName.manifest ∨
    ∃ segment ∈ segments, ∃ half, name = FileName.segment half segment.generation

section Recovered

variable {recorded next : UInt64} {segments : List Segment} {limit : Nat} {s t u : Snapshot}

theorem Clean.tidy (h : Clean segments s) (hbelow : ∀ segment ∈ segments, segment.generation < next) :
    Tidy next.toNat s := by
  intro name bytes hfile
  rcases h name bytes hfile with hname | ⟨segment, hmem, half, hname⟩
  · exact .inl hname
  · exact .inr (.inr ⟨segment.generation, UInt64.lt_iff_toNat_lt.1 (hbelow segment hmem),
      FileName.mem_ofGeneration.2 ⟨half, .inl hname⟩⟩)

/-- Changes under temporary names leave a directory committed as it was. -/
theorem Recoverable.within {names : List String} (h : Recoverable recorded segments s)
    (hwithin : Within names s t) (hnames : ∀ name ∈ names, FileName.isTemporary name = true) :
    Recoverable recorded segments t := by
  rcases h with h | ⟨hrecorded, hsegments, -, htemporary⟩
  · refine .inl (h.within hwithin ?_ fun segment _ half => ?_)
    · exact fun hmem => FileName.ne_of_isTemporary (hnames _ hmem) FileName.not_isTemporary_manifest rfl
    · exact fun hmem =>
        FileName.ne_of_isTemporary (hnames _ hmem) (FileName.not_isTemporary_segment _ _) rfl
  · refine .inr ⟨hrecorded, hsegments, hwithin.unshared, fun name bytes hfile => ?_⟩
    by_cases hmem : name ∈ names
    · exact hnames name hmem
    · exact htemporary name bytes ((hwithin.same name hmem).symm.trans hfile)

theorem Recoverable.writing (h : Recoverable recorded segments s)
    (hwithin : Within [FileName.temporary FileName.manifest] s t) : Recoverable recorded segments t := by
  refine h.within hwithin fun name hname => ?_
  rw [List.mem_singleton.1 hname]
  exact FileName.isTemporary_temporary_manifest

theorem isTemporary_of_mem_leftovers {name : String} {names : List String}
    (h : name ∈ Manager.leftovers names) : FileName.isTemporary name = true :=
  (List.mem_filter.1 h).2

/-- Once temporary files are removed, a directory is committed as it was, or no file is left or found. -/
theorem Recoverable.scanned (h : Recoverable recorded segments s)
    (hremoved : Removed (Manager.leftovers s.names.fileNames) s t) :
    Committed t recorded segments ∨ (recorded = 0 ∧ segments = [] ∧ t.Unshared ∧
      (∀ name bytes, t.holding name ≠ .file bytes) ∧ Manager.found s.names.fileNames = []) := by
  rcases h with h | ⟨hrecorded, hsegments, -, htemporary⟩
  · refine .inl (h.within hremoved.within ?_ fun segment _ half => ?_)
    · exact fun hmem => FileName.ne_of_isTemporary (isTemporary_of_mem_leftovers hmem)
        FileName.not_isTemporary_manifest rfl
    · exact fun hmem => FileName.ne_of_isTemporary (isTemporary_of_mem_leftovers hmem)
        (FileName.not_isTemporary_segment _ _) rfl
  · have hall : ∀ name ∈ s.names.fileNames, FileName.isTemporary name = true := by
      intro name hname
      obtain ⟨bytes, hfile⟩ := Snapshot.mem_fileNames.1 hname
      exact htemporary name bytes hfile
    refine .inr ⟨hrecorded, hsegments, hremoved.unshared, fun name bytes hfile => ?_, ?_⟩
    · obtain ⟨hfile, hleft⟩ := hremoved.file_iff.1 hfile
      have hname := Snapshot.mem_fileNames.2 ⟨bytes, hfile⟩
      exact hleft (List.mem_filter.2 ⟨hname, hall name hname⟩)
    · have hnone : s.names.fileNames.filter (fun name => ¬ FileName.isTemporary name) = [] := by
        rw [List.filter_eq_nil_iff]
        intro name hname
        simp [hall name hname]
      rw [Manager.found, hnone]
      rfl

/-- Once temporary files and the segments that are not committed are removed, a tidy directory is clean. -/
theorem Tidy.clean (h : Tidy limit s) (hscanned : Removed (Manager.leftovers s.names.fileNames) s t)
    (hremoved : Removed ((Manager.uncommitted
      (Manifest.current recorded (segments.reverse.map Segment.info))
      (Manager.found s.names.fileNames)).flatMap FileName.halves) t u) : Clean segments u := by
  intro name bytes hfile
  obtain ⟨hfile, hlisted⟩ := hremoved.file_iff.1 hfile
  obtain ⟨hfile, hleft⟩ := hscanned.file_iff.1 hfile
  have hname := Snapshot.mem_fileNames.2 ⟨bytes, hfile⟩
  have hkept : FileName.isTemporary name = false := by
    cases htemporary : FileName.isTemporary name with
    | false => rfl
    | true => exact absurd (List.mem_filter.2 ⟨hname, htemporary⟩) hleft
  rcases h name bytes hfile with rfl | rfl | ⟨generation, -, hmem⟩
  · exact .inl rfl
  · rw [FileName.isTemporary_temporary_manifest] at hkept
    cases hkept
  · obtain ⟨half, rfl | rfl⟩ := FileName.mem_ofGeneration.1 hmem
    · by_cases hcommitted : ∀ segment ∈ segments, segment.generation ≠ generation
      · refine absurd (List.mem_flatMap.2 ⟨generation, Manager.mem_uncommitted.2
          ⟨Manager.mem_generations_found hname, hcommitted⟩, ?_⟩) hlisted
        exact FileName.mem_halves.2 ⟨half, rfl⟩
      · obtain ⟨segment, hsegment, rfl⟩ : ∃ segment ∈ segments, segment.generation = generation := by
          simpa using hcommitted
        exact .inr ⟨segment, hsegment, half, rfl⟩
    · rw [FileName.isTemporary_temporary_segment] at hkept
      cases hkept

/-- The committed segments are found, unless a directory is in the place of the manifest. -/
theorem Manager.Finds.recoverable {verified : Bool} {result : Except Error (List Segment × UInt64)}
    (h : Finds verified (found s.names.fileNames) t result u) (hs : Recoverable recorded segments s)
    (hscanned : Removed (leftovers s.names.fileNames) s t) :
    Recoverable recorded segments u ∧ (result = .ok (segments.reverse, recorded) ∨
      t.holding FileName.manifest = .folder ∧ ∃ error, result = .error error) := by
  rcases hs.scanned hscanned with ht | ⟨rfl, rfl, hu, hnone, hfound⟩
  · obtain ⟨hresult, hremoved⟩ := h.committed ht
    exact ⟨.inl (ht.removed hremoved.within fun generation hgeneration =>
      (mem_uncommitted.1 hgeneration).2), .inl hresult⟩
  · obtain ⟨rfl, hresult⟩ := h.fresh (hnone FileName.manifest) (by rw [hfound]; rfl)
    exact ⟨.inr ⟨rfl, rfl, hu, fun name bytes hfile => absurd hfile (hnone name bytes)⟩, hresult⟩

/-- While the segments that are not listed are removed, a directory stays committed as it was. -/
theorem Recoverable.sweeping (hs : Recoverable recorded segments s)
    (hscanned : Removed (Manager.leftovers s.names.fileNames) s t)
    (hwithin : Within (Manager.unlisted (Manager.found s.names.fileNames)
      (t.holding FileName.manifest)) t u) : Recoverable recorded segments u := by
  rcases hs.scanned hscanned with ht | ⟨hrecorded, hsegments, -, hnone, hfound⟩
  · obtain ⟨bytes, hencode, hwritten⟩ := ht.written
    rw [hwritten, Manager.unlisted_of_decode (Manifest.decode_encode hencode rfl)] at hwithin
    exact .inl (ht.removed hwithin fun generation hgeneration =>
      (Manager.mem_uncommitted.1 hgeneration).2)
  · rw [hfound, Manager.unlisted_nil] at hwithin
    refine .inr ⟨hrecorded, hsegments, hwithin.unshared, fun name bytes hfile => ?_⟩
    exact absurd ((hwithin.same name List.not_mem_nil).symm.trans hfile) (hnone name bytes)

theorem Recoverable.removed {generations : List UInt64} (h : Recoverable recorded segments s)
    (hremoved : Removed (generations.flatMap FileName.halves) s t)
    (hother : ∀ generation ∈ generations, ∀ segment ∈ segments, segment.generation ≠ generation) :
    Recoverable recorded segments t := by
  rcases h with h | ⟨hrecorded, hsegments, -, htemporary⟩
  · exact .inl (h.removed hremoved.within hother)
  · exact .inr ⟨hrecorded, hsegments, hremoved.unshared, fun name bytes hfile =>
      htemporary name bytes (hremoved.file_iff.1 hfile).1⟩

theorem Recoverable.of_sameFiles (h : Recoverable recorded segments s)
    (hsame : Snapshot.SameFiles s t) : Recoverable recorded segments t := by
  rcases h with h | ⟨hrecorded, hsegments, -, htemporary⟩
  · exact .inl (h.of_sameFiles hsame)
  · exact .inr ⟨hrecorded, hsegments, hsame.unshared, fun name bytes hfile =>
      htemporary name bytes ((hsame.same name bytes).1 hfile)⟩

theorem Recoverable.below (h : Recoverable recorded segments s) :
    ∀ segment ∈ segments, segment.generation < recorded := by
  rcases h with h | ⟨-, rfl, -, -⟩
  · exact h.below
  · simp

theorem Clean.installed {manifest : Manifest} (h : Clean segments s)
    (hinstalled : Manifest.Installed manifest s t) : Clean segments t := by
  intro name bytes hfile
  by_cases hmanifest : name = FileName.manifest
  · exact .inl hmanifest
  · by_cases htemporary : name = FileName.temporary FileName.manifest
    · rw [htemporary, hinstalled.temporary] at hfile
      cases hfile
    · rw [hinstalled.same name hmanifest htemporary] at hfile
      exact h name bytes hfile

theorem Recoverable.encode (h : Recoverable recorded segments s) (next : UInt64) :
    ∃ bytes, (Manifest.current next (segments.reverse.map Segment.info)).encode = .ok bytes := by
  rcases h with h | ⟨-, rfl, -, -⟩
  · obtain ⟨bytes, hencode, -⟩ := h.written
    exact Manifest.encode_current hencode next
  · exact Manifest.encode_current (show (Manifest.current 0 []).encode = .ok _ from rfl) next

/-- **A manifest written anew** commits the directory to the same segments. -/
theorem Recoverable.installed (h : Recoverable recorded segments s) (hle : recorded ≤ next)
    (hinstalled : Manifest.Installed (Manifest.current next (segments.reverse.map Segment.info)) s t) :
    Committed t next segments := by
  refine ⟨hinstalled.unshared, hinstalled.written, fun segment hmem => ?_, fun segment hmem => ?_, ?_⟩
  · rcases h with h | ⟨-, rfl, -, -⟩
    · refine (h.stored segment hmem).within hinstalled.within fun half => ?_
      simp [FileName.segment_ne_manifest, (FileName.temporary_manifest_ne_segment _ _).symm]
    · cases hmem
  · rcases h with h | ⟨-, rfl, -, -⟩
    · exact UInt64.lt_of_lt_of_le (h.below segment hmem) hle
    · cases hmem
  · rcases h with h | ⟨-, rfl, -, -⟩
    · exact h.falling
    · exact List.Pairwise.nil

end Recovered

namespace Manager

variable {start : Disk} {recorded : UInt64} {segments : List Segment} {limit : Nat}

theorem toNat_max (a b : UInt64) : (max a b).toNat = max a.toNat b.toNat := by
  show (if a ≤ b then b else a).toNat = _
  split
  · next h =>
    rw [UInt64.le_iff_toNat_le] at h
    omega
  · next h =>
    rw [UInt64.le_iff_toNat_le] at h
    omega

theorem le_resumed (found : Found) (next : UInt64) : next ≤ resumed found next := by
  rw [UInt64.le_iff_toNat_le, resumed, toNat_max, toNat_max]
  omega

/-- The next generation is past none that was not handed out. -/
theorem resumed_le {found : Found} {next : UInt64} (hnext : next.toNat ≤ limit) (hpos : 0 < limit)
    (hlimit : limit < UInt64.size) (hfound : ∀ generation ∈ generations found, generation.toNat < limit) :
    (resumed found next).toNat ≤ limit := by
  have hhighest : ((generations found).getLast?.getD 0 + 1).toNat ≤ limit := by
    cases hlast : (generations found).getLast? with
    | none => exact hpos
    | some generation =>
      have hlt := hfound generation (List.mem_of_getLast? hlast)
      rw [Option.getD_some, Kept.toNat_succ (by omega)]
      exact hlt
  rw [resumed, toNat_max, toNat_max]
  have hone : (1 : UInt64).toNat = 1 := rfl
  omega

/-- What is found leaves a tidy directory clean, with the directories in it as they were. -/
theorem Finds.clean {verified : Bool} {result : Except Error (List Segment × UInt64)} {s t u : Snapshot}
    (h : Finds verified (found s.names.fileNames) t result u) (hs : Recoverable recorded segments s)
    (htidy : Tidy limit s) (hscanned : Removed (leftovers s.names.fileNames) s t) :
    Clean segments u ∧ ∀ name, u.holding name = .folder → s.holding name = .folder := by
  rcases hs.scanned hscanned with ht | ⟨rfl, rfl, -, hnone, hfound⟩
  · obtain ⟨-, hremoved⟩ := h.committed ht
    exact ⟨htidy.clean hscanned hremoved, fun name hname =>
      hscanned.folder_iff.1 (hremoved.folder_iff.1 hname)⟩
  · obtain ⟨rfl, -⟩ := h.fresh (hnone FileName.manifest) (by rw [hfound]; rfl)
    exact ⟨fun name bytes hfile => absurd hfile (hnone name bytes), fun name hname =>
      hscanned.folder_iff.1 hname⟩

/-- **A crash** at any moment of an opening leaves a directory that opens with the same segments. -/
theorem Midway.survives {config : Config} {s t : Snapshot} (h : Midway config s t)
    (hs : Recoverable recorded segments s) (htidy : Tidy limit s) (hrecorded : recorded.toNat ≤ limit)
    (hpos : 0 < limit) (hlimit : limit < UInt64.size) : Survives limit segments t := by
  have hswept : ∀ {u v : Snapshot}, Removed (leftovers s.names.fileNames) s u →
      Within (unlisted (found s.names.fileNames) (u.holding FileName.manifest)) u v → Tidy limit v := by
    intro u v hscanned hwithin
    refine (htidy.removed hscanned).within hwithin fun name hname => ?_
    obtain ⟨generation, hgeneration, hname⟩ := mem_unlisted hname
    obtain ⟨half, hname⟩ := FileName.mem_halves.1 hname
    exact .inr (.inr ⟨generation, lt_of_mem_generations htidy hgeneration,
      FileName.mem_ofGeneration.2 ⟨half, .inl hname⟩⟩)
  cases h with
  | scanning h =>
    refine ⟨recorded, hs.within h fun name => isTemporary_of_mem_leftovers, hrecorded,
      htidy.within h fun name hname => ?_⟩
    obtain ⟨bytes, hfile⟩ := Snapshot.mem_fileNames.1 (List.mem_filter.1 hname).1
    exact htidy name bytes hfile
  | sweeping hscanned h =>
    exact ⟨recorded, hs.sweeping hscanned h, hrecorded, hswept hscanned h⟩
  | storing hscanned hwithin hfinds h =>
    obtain ⟨hu, hresult⟩ := hfinds.recoverable hs hscanned
    have htidy' := hswept hscanned hwithin
    have hknown : ∀ name ∈ [FileName.manifest, FileName.temporary FileName.manifest],
        Known limit name := by
      intro name hname
      rcases List.mem_cons.1 hname with rfl | hname
      · exact .inl rfl
      · exact .inr (.inl (List.mem_singleton.1 hname))
    rcases hresult with hresult | ⟨-, error, hresult⟩
    · cases hresult
      rcases h with h | h
      · exact ⟨recorded, hu.writing h, hrecorded,
          htidy'.within h fun name hname => hknown name (List.mem_cons_of_mem _ hname)⟩
      · rw [List.reverse_reverse] at h
        refine ⟨_, .inl (hu.installed (le_resumed _ recorded) h), ?_, htidy'.within h.within hknown⟩
        exact resumed_le hrecorded hpos hlimit fun generation hmem => lt_of_mem_generations htidy hmem
    · cases hresult

/-- **An opening** of a directory that was used by the store finds the segments that are committed and
leaves their files and the manifest; it fails only if a directory is where the manifest is to be written,
and then leaves what is committed. -/
theorem runs_recover (config : Config) (h : Recoverable recorded segments start.snapshot)
    (htidy : Tidy limit start.snapshot) (hrecorded : recorded.toNat ≤ limit) (hpos : 0 < limit)
    (hlimit : limit < UInt64.size) :
    Runs (recover config).run start
      (fun result after => match result with
        | .ok (manager, opened) => opened = segments ∧ manager.next.toNat ≤ limit ∧
            recorded ≤ manager.next ∧ Kept manager.next manager.next segments after.snapshot ∧
            Clean segments after.snapshot
        | .error _ => Recoverable recorded segments after.snapshot ∧ Tidy limit after.snapshot ∧
            (start.snapshot.holding (FileName.temporary FileName.manifest) = .folder ∨
              start.snapshot.holding FileName.manifest = .folder))
      (Survives limit segments) := by
  refine (runs_parts config h.unshared).mono ?_ fun t ht => ht.survives h htidy hrecorded hpos hlimit
  rintro result after ⟨s, hscanned, t, outcome, -, hfinds, houtcome⟩ -
  obtain ⟨ht, hresult⟩ := hfinds.recoverable h hscanned
  obtain ⟨hclean, hfolder⟩ := hfinds.clean h htidy hscanned
  have htidy' : Tidy limit t := (hclean.tidy h.below).mono hrecorded
  rcases hresult with rfl | ⟨hmanifest, error, rfl⟩
  · rcases result with error | ⟨manager, opened⟩
    · obtain ⟨hrestored, hreason⟩ := houtcome
      refine ⟨ht.writing hrestored.within, htidy'.within hrestored.within ?_, ?_⟩
      · intro name hname
        exact .inr (.inl (List.mem_singleton.1 hname))
      · rcases hreason with ⟨error, hencode⟩ | hreason | hreason
        · obtain ⟨bytes, hbytes⟩ := ht.encode (resumed (found start.snapshot.names.fileNames) recorded)
          rw [List.reverse_reverse, hbytes] at hencode
          cases hencode
        · exact .inl (hfolder _ hreason)
        · exact .inr (hfolder _ hreason)
    · obtain ⟨rfl, rfl, hinstalled⟩ := houtcome
      rw [List.reverse_reverse] at hinstalled ⊢
      have hle := le_resumed (found start.snapshot.names.fileNames) recorded
      have hcommitted := ht.installed hle hinstalled
      have hclean' := hclean.installed hinstalled
      refine ⟨rfl, resumed_le hrecorded hpos hlimit fun generation hmem =>
        lt_of_mem_generations htidy hmem, hle, ⟨hcommitted, UInt64.le_refl _, ?_⟩, hclean'⟩
      exact hclean'.tidy hcommitted.below
  · rcases result with _ | ⟨manager, opened⟩
    · dsimp only at houtcome
      subst houtcome
      exact ⟨ht, htidy', .inr (hscanned.folder_iff.1 hmanifest)⟩
    · exact houtcome.elim

end Manager

end LsmTree
