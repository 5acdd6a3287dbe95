import LsmTree.Proofs.Discovery
import LsmTree.Proofs.Endings
import LsmTree.Proofs.RepeatedRuns

/-!
# What an opening may take away

An opening takes files away: those of writes cut short, and those of segments that are not committed. It may
end with an error at any point, with some of them gone and others not.

* **`Segment.Opens`** — what opening a segment gives, by the files alone;
* **`Manager.ends_scan`**, **`Manager.ends_committed`** — what the parts of an opening leave, and
  **`Manager.ends_recover`**, put together from them;
* **`Manager.Harmless`**, **`Manager.load_harmless`** — what is left of every file, whether the opening
  succeeds or fails.
-/

namespace LsmTree

/-! ## Opening segments -/

namespace Segment

variable {disk : Disk} {files : String → Option Bytes} {generation : UInt64}
  {recorded : Option SegmentMeta} {verified : Bool} {segment : Segment}

/-- The segment is what opening the files of its generation gives. -/
def Opens (files : String → Option Bytes) (generation : UInt64) (recorded : Option SegmentMeta)
    (verified : Bool) (segment : Segment) : Prop :=
  ∃ data index, files (FileName.segment .data generation) = some data ∧
    files (FileName.segment .index generation) = some index ∧
    ofFiles generation recorded verified data index = .ok segment

theorem Opens.generation_eq (h : Opens files generation recorded verified segment) :
    segment.generation = generation := by
  obtain ⟨data, index, -, -, hfiles⟩ := h
  exact (ofFiles_again hfiles).1

theorem looks_readFile (name : String) :
    Looks (readFile name) disk fun bytes => disk.snapshot.file? name = some bytes := by
  refine Looks.relabel Disk.looks_read fun error => ?_
  split <;> exact .throw _

/-- **Opening a segment** changes nothing. -/
theorem looks_load (generation : UInt64) (recorded : Option SegmentMeta) (verified : Bool) :
    Looks (load generation recorded verified) disk
      (Opens disk.snapshot.file? generation recorded verified) := by
  refine Looks.andThen (looks_readFile _) fun data hdata => ?_
  refine Looks.andThen (looks_readFile _) fun index hindex => ?_
  split
  · next segment hfiles => exact .pure segment ⟨data, index, hdata, hindex, hfiles⟩
  · exact .throw _

end Segment

namespace Manager

variable {disk : Disk} {files : String → Option Bytes}

theorem looks_loadCommitted (generation : UInt64) (recorded : Option SegmentMeta) (verified : Bool) :
    Looks (loadCommitted generation recorded verified) disk
      (Segment.Opens disk.snapshot.file? generation recorded verified) := by
  refine Looks.relabel (Segment.looks_load _ _ _) fun error => ?_
  split <;> exact .throw _

/-- **The segments listed** are opened one after the other. -/
theorem looks_loadListed (verified : Bool) (metas : List SegmentMeta) :
    Looks (loadListed verified metas) disk (List.Forall₂ (fun recorded =>
      Segment.Opens disk.snapshot.file? recorded.generation (some recorded) verified) metas) := by
  induction metas with
  | nil => exact .pure [] .nil
  | cons first rest ih =>
    exact .andThen (looks_loadCommitted _ _ _) fun head hhead =>
      .andThen ih fun tail htail => .pure _ (.cons hhead htail)

/-- **The segments found** are opened one after the other. -/
theorem looks_loadFound (verified : Bool) (found : Found) (generations : List UInt64) :
    Looks (loadFound verified found generations) disk (List.Forall₂ (fun generation =>
      Segment.Opens disk.snapshot.file? generation none verified) generations) := by
  induction generations with
  | nil => exact .pure [] .nil
  | cons first rest ih =>
    rw [loadFound]
    split
    · exact .throw _
    · exact .andThen (looks_loadCommitted _ _ _) fun head hhead =>
        .andThen ih fun tail htail => .pure _ (.cons hhead htail)

end Manager

namespace Manager

variable {disk : Disk} {gone : String → Prop}

/-- **Taking names away** leaves no files of those that are short enough. -/
theorem ends_unlinkAll (names : List String) : Ends (unlinkAll names) disk fun _ after =>
    Disk.Pruned (· ∈ names) disk after ∧
      ∀ name ∈ names, disk.fits name = true → after.snapshot.names.file? name = none := by
  induction names generalizing disk with
  | nil => exact .pure () ⟨.refl _ _, by simp⟩
  | cons first rest ih =>
    refine Ends.bind (Disk.ends_unlink first) fun _ middle hfirst => ?_
    refine Ends.mono ih fun _ after hrest => ?_
    refine ⟨(hfirst.1.mono ?_).trans (hrest.1.mono ?_), fun name hmem hfits => ?_⟩
    · rintro _ rfl
      exact List.mem_cons_self
    · exact fun name hmem => List.mem_cons_of_mem _ hmem
    · rcases List.mem_cons.1 hmem with rfl | hmem
      · exact hrest.1.noFile (hfirst.2 hfits)
      · exact hrest.2 name hmem (by rw [hfirst.1.fits, hfits])

theorem ends_removeAll (generations : List UInt64) : Ends (removeAll generations) disk fun _ after =>
    Disk.Pruned (· ∈ generations.flatMap FileName.halves) disk after := by
  induction generations generalizing disk with
  | nil => exact .pure () (.refl _ _)
  | cons first rest ih =>
    refine Ends.bind (Segment.ends_remove first) fun _ middle hfirst => ?_
    refine Ends.mono ih fun _ after hrest => ?_
    rw [List.flatMap_cons]
    exact (hfirst.mono fun _ => List.mem_append_left _).trans (hrest.mono fun _ => List.mem_append_right _)

/-! ## Parts of an opening -/

/-- The files that a listing finds: those whose names are short enough. -/
def seen (disk : Disk) : List String := disk.snapshot.names.fileNames.filter disk.fits

theorem mem_seen {name : String} : name ∈ seen disk ↔
    (∃ bytes, disk.snapshot.file? name = some bytes) ∧ disk.fits name = true := by
  rw [seen, List.mem_filter, Snapshot.mem_fileNames]
  simp only [Snapshot.file?_eq_holding]

theorem looks_fileNames : Looks Disk.fileNames disk (· = seen disk) := by
  refine Looks.andThen Disk.looks_enter ?_
  rintro dir rfl
  exact Looks.pure _ rfl

/-- **The scan** takes temporary files away, all those whose names are short enough. -/
theorem ends_scan : Ends scan.run disk fun result after =>
    Disk.Pruned (FileName.isTemporary · = true) disk after ∧ match result with
      | .ok names => names = found (seen disk) ∧ ∀ name, FileName.isTemporary name = true →
          disk.fits name = true → after.snapshot.names.file? name = none
      | .error _ => after = disk := by
  refine Ends.andThen looks_fileNames ?_ ?_
  · rintro names after ⟨rfl, hnames⟩
    obtain rfl := hnames names rfl
    refine Ends.liftThen (ends_unlinkAll _) fun _ last hlast => ?_
    obtain ⟨hpruned, hgone⟩ := hlast
    refine .pure _ ⟨hpruned.mono fun name hmem => (List.mem_filter.1 hmem).2, rfl, ?_⟩
    intro name htemporary hfits
    -- A file of this name was seen, so the name is among those taken away.
    cases hfile : after.snapshot.names.file? name with
    | none => exact hpruned.noFile hfile
    | some number =>
      have hseen : name ∈ seen after := mem_seen.2 ⟨⟨_, by rw [Snapshot.file?, hfile]; rfl⟩, hfits⟩
      exact hgone name (List.mem_filter.2 ⟨hseen, htemporary⟩) hfits
  · rintro error after ⟨rfl, -⟩
    exact ⟨.refl _ _, rfl⟩

/-- What counts as committed: the segments that the manifest lists, and then others are taken away, or,
without a manifest, those found by name. -/
inductive Picks (verified : Bool) (found : Found) (start : Disk) (segments : List Segment)
    (after : Disk) : Prop
  | listed {bytes : Bytes} {manifest : Manifest}
      (hwritten : start.snapshot.file? FileName.manifest = some bytes)
      (hdecode : Manifest.decode bytes = .ok manifest)
      (hopened : List.Forall₂ (fun recorded => Segment.Opens start.snapshot.file? recorded.generation
        (some recorded) verified) manifest.segments segments)
      (hpruned : Disk.Pruned (· ∈ (uncommitted manifest found).flatMap FileName.halves) start after)
  | discovered (hunwritten : start.snapshot.file? FileName.manifest = none)
      (hopened : List.Forall₂ (fun generation => Segment.Opens start.snapshot.file? generation none verified)
        (generations found) segments)
      (hsame : after = start)

/-- **The committed segments** are picked, or nothing is changed. -/
theorem ends_committed (verified : Bool) (found : Found) :
    Ends (committed verified found).run disk fun result after => match result with
      | .ok (segments, _) => Picks verified found disk segments after
      | .error _ => after = disk := by
  refine Ends.andThen Manifest.looks_load ?_ fun _ _ h => h.1
  rintro (_ | manifest) after ⟨rfl, hmanifest⟩
  · refine Ends.andThen (looks_loadFound verified found _) ?_ fun _ _ h => h.1
    rintro segments after' ⟨rfl, hopened⟩
    exact .pure _ (.discovered (hmanifest _ rfl) (hopened _ rfl) rfl)
  · obtain ⟨bytes, hbytes, hdecode⟩ := hmanifest _ rfl
    refine Ends.andThen (looks_loadListed verified manifest.segments) ?_ fun _ _ h => h.1
    rintro segments after' ⟨rfl, hopened⟩
    refine Ends.liftThen (ends_removeAll _) fun _ last hpruned => ?_
    exact .pure _ (.listed hbytes hdecode (hopened _ rfl) hpruned)

end Manager

namespace Manager

/-! ## Openings -/

variable {config : Config} {disk : Disk} {room : Option Nat} {before after : String → Option Bytes}
  {result : Except Error (Manager × List Segment)}

/-- The names that an opening may take away: those of temporary files, and those of the halves of segments
that the manifest does not list, if there is one that can be read and all that it lists opens. -/
def Expendable (verified : Bool) (files : String → Option Bytes) (name : String) : Prop :=
  FileName.isTemporary name = true ∨ ∃ bytes manifest, files FileName.manifest = some bytes ∧
    Manifest.decode bytes = .ok manifest ∧ Stray manifest name ∧
    ∀ recorded ∈ manifest.segments, ∃ segment,
      Segment.Opens files recorded.generation (some recorded) verified segment

/-- The generations that an opening lists: those that the manifest listed before, in that order; without a
manifest those found by name, in ascending order. -/
def Relisted (room : Option Nat) (files : String → Option Bytes) (generations : List UInt64) : Prop :=
  match files FileName.manifest with
  | some bytes => ∃ manifest, Manifest.decode bytes = .ok manifest ∧
      generations = manifest.segments.map SegmentMeta.generation
  | none => generations.Pairwise (· < ·) ∧ ∀ generation, generation ∈ generations ↔
      ∃ name half, (∃ bytes, files name = some bytes) ∧ fitsIn room name = true ∧
        FileName.isTemporary name = false ∧ FileName.parseName? name = some (generation, half)

/-- **What an opening does to the files of a directory**, however it ends: those that it may take away may be
gone, the manifest is replaced if it succeeds, and all others are as they were. -/
structure Harmless (config : Config) (room : Option Nat) (before : String → Option Bytes)
    (result : Except Error (Manager × List Segment)) (after : String → Option Bytes) : Prop where
  others : ∀ name, name ≠ FileName.manifest → after name = before name ∨
    after name = none ∧ Expendable config.verifyChecksums before name
  failed : ∀ error, result = .error error → after FileName.manifest = before FileName.manifest
  succeeded : ∀ opened, result = .ok opened → ∃ bytes manifest,
    after FileName.manifest = some bytes ∧ Manifest.decode bytes = .ok manifest ∧
      Relisted room before (manifest.segments.map SegmentMeta.generation)

theorem not_expendable_manifest {verified : Bool} : ¬ Expendable verified before FileName.manifest := by
  rintro (htemporary | ⟨-, manifest, -, -, hstray, -⟩)
  · rw [FileName.not_isTemporary_manifest] at htemporary
    cases htemporary
  · exact hstray.ne_manifest rfl

/-- Files that may be taken away are gone, and no others. -/
def Spared (verified : Bool) (before after : String → Option Bytes) : Prop :=
  ∀ name, after name = before name ∨ after name = none ∧ Expendable verified before name

theorem Spared.manifest {verified : Bool} (h : Spared verified before after) :
    after FileName.manifest = before FileName.manifest :=
  (h FileName.manifest).resolve_right fun hgone => not_expendable_manifest hgone.2

theorem Spared.harmless (h : Spared config.verifyChecksums before after) (error : Error) :
    Harmless config room before (.error error) after :=
  ⟨fun name _ => h name, fun _ _ => h.manifest, by rintro _ ⟨⟩⟩

theorem spared_of_scan {start : Disk} (h : Disk.Pruned (FileName.isTemporary · = true) start disk)
    (verified : Bool) : Spared verified start.snapshot.file? disk.snapshot.file? := by
  intro name
  rcases h.file? name with hsame | ⟨htemporary, hnone⟩
  · exact .inl hsame
  · exact .inr ⟨hnone, .inl htemporary⟩

/-- Segments opened one for each of a list have the generations of the list. -/
theorem generations_of_opens {files : String → Option Bytes} {verified : Bool} {γ : Type}
    {generation : γ → UInt64} {recorded : γ → Option SegmentMeta} {inputs : List γ}
    {segments : List Segment} (h : List.Forall₂ (fun input =>
      Segment.Opens files (generation input) (recorded input) verified) inputs segments) :
    segments.map Segment.generation = inputs.map generation := by
  induction h with
  | nil => rfl
  | cons hhead _ ih => rw [List.map_cons, List.map_cons, hhead.generation_eq, ih]

theorem exists_of_forall₂ {γ δ : Type} {related : γ → δ → Prop} {as : List γ} {bs : List δ}
    (h : List.Forall₂ related as bs) : ∀ a ∈ as, ∃ b, related a b := by
  induction h with
  | nil => simp
  | cons hhead _ ih => exact List.forall_mem_cons.2 ⟨⟨_, hhead⟩, ih⟩

/-- Once temporary files are gone, the files of segments open as before. -/
theorem opens_pruned {start : Disk} (h : Disk.Pruned (FileName.isTemporary · = true) start disk)
    {generation : UInt64} {recorded : Option SegmentMeta} {verified : Bool} {segment : Segment}
    (hopens : Segment.Opens disk.snapshot.file? generation recorded verified segment) :
    Segment.Opens start.snapshot.file? generation recorded verified segment := by
  have hsame : ∀ half, disk.snapshot.file? (FileName.segment half generation) =
      start.snapshot.file? (FileName.segment half generation) := fun half =>
    (h.file? _).resolve_right fun hgone => by
      rw [FileName.not_isTemporary_segment] at hgone
      exact absurd hgone.1 Bool.false_ne_true
  obtain ⟨data, index, hdata, hindex, hfiles⟩ := hopens
  exact ⟨data, index, hsame .data ▸ hdata, hsame .index ▸ hindex, hfiles⟩

/-- **What is picked after the scan**, by the files before it. -/
theorem Picks.spared {verified : Bool} {start last : Disk} {segments : List Segment}
    (h : Picks verified (found (seen start)) disk segments last)
    (hscanned : Disk.Pruned (FileName.isTemporary · = true) start disk) :
    Spared verified start.snapshot.file? last.snapshot.file? ∧
      Relisted start.room start.snapshot.file? (segments.map Segment.generation) ∧
      ∃ gone, Disk.Pruned gone disk last := by
  have hscan := spared_of_scan hscanned verified
  cases h with
  | listed hwritten hdecode hopened hpruned =>
    rw [hscan.manifest] at hwritten
    refine ⟨fun name => ?_, ?_, _, hpruned⟩
    · rcases hpruned.file? name with hsame | ⟨hmem, hnone⟩
      · exact hsame ▸ hscan name
      · -- A name taken away belongs to a segment that was found and is not listed; all listed ones are open.
        obtain ⟨generation, hgeneration, hname⟩ := List.mem_flatMap.1 hmem
        obtain ⟨half, rfl⟩ := FileName.mem_halves.1 hname
        have hstray := (mem_uncommitted_iff.1 hgeneration).2
        refine .inr ⟨hnone, .inr ⟨_, _, hwritten, hdecode, .inr ⟨half, generation, rfl, hstray⟩, ?_⟩⟩
        intro recorded hrecorded
        obtain ⟨segment, hopens⟩ := exists_of_forall₂ hopened recorded hrecorded
        exact ⟨segment, opens_pruned hscanned hopens⟩
    · rw [Relisted, hwritten]
      exact ⟨_, hdecode, generations_of_opens hopened⟩
  | discovered hunwritten hopened hsame =>
    subst hsame
    rw [hscan.manifest] at hunwritten
    refine ⟨hscan, ?_, _, .refl (fun _ => True) _⟩
    rw [Relisted, hunwritten, generations_of_opens hopened, List.map_id']
    refine ⟨generations_sorted _, fun generation => ?_⟩
    rw [mem_generations_found_iff]
    constructor
    · rintro ⟨name, hseen, htemporary, half, hparse⟩
      obtain ⟨hfile, hfits⟩ := mem_seen.1 hseen
      exact ⟨name, half, hfile, hfits, htemporary, hparse⟩
    · rintro ⟨name, half, hfile, hfits, htemporary, hparse⟩
      exact ⟨name, mem_seen.2 ⟨hfile, hfits⟩, htemporary, half, hparse⟩

/-- **An opening of a directory** is harmless. -/
theorem ends_recover (config : Config) (hwhole : disk.snapshot.Whole) :
    Ends (recover config).run disk fun result after => disk.Stands after ∧
      Harmless config disk.room disk.snapshot.file? result after.snapshot.file? := by
  refine Ends.andThen ends_scan ?_ ?_
  · rintro names scanned ⟨hscanned, rfl, htemporary⟩
    refine Ends.andThen (ends_committed config.verifyChecksums _) ?_ ?_
    · rintro ⟨segments, next⟩ last hpicks
      obtain ⟨hspared, hrelisted, gone, hpruned⟩ := hpicks.spared hscanned
      have hstands := hscanned.stands.trans hpruned.stands
      refine Ends.andThen (Manifest.ends_store _ (hpruned.whole (hscanned.whole hwhole)) ?_) ?_ ?_
      · intro hfits
        refine hpruned.noFile (htemporary _ FileName.isTemporary_temporary_manifest ?_)
        rwa [hpruned.fits, hscanned.fits] at hfits
      · rintro ⟨⟩ done ⟨hstands', bytes, hencode, hfiles⟩
        refine .pure _ ⟨hstands.trans hstands', fun name hname => ?_, ?_, ?_⟩
        · rw [hfiles, if_neg hname]
          exact hspared name
        · rintro error ⟨⟩
        · rintro opened -
          refine ⟨bytes, _, by rw [hfiles, if_pos rfl], Manifest.decode_encode hencode rfl, ?_⟩
          rw [List.reverse_reverse, Manifest.current, List.map_map]
          exact hrelisted
      · rintro error done ⟨hstands', hfiles⟩
        refine ⟨hstands.trans hstands', ?_⟩
        rw [show done.snapshot.file? = last.snapshot.file? from funext hfiles]
        exact hspared.harmless error
    · rintro error last rfl
      exact ⟨hscanned.stands, (spared_of_scan hscanned _).harmless error⟩
  · rintro error after ⟨-, rfl⟩
    exact ⟨(Disk.Pruned.refl (fun _ => True) _).stands, Spared.harmless (fun _ => .inl rfl) error⟩

end Manager

/-! ## Opening at a path -/

namespace Volume

variable {volume : Volume} {path : String} {dir : Directory} {disk : Disk}

theorem snapshot_disk (h : volume.folder path = .ok dir) :
    (volume.disk path).snapshot = volume.snapshot path := by
  rw [disk_of_folder h, snapshot_of_folder h]
  rfl

/-- **After an operation** that takes no directories away a directory is found at its path as the operation
left it. -/
theorem update_of_stands (h : volume.folder path = .ok dir) (hstands : (volume.disk path).Stands disk) :
    (∃ dir', (volume.update path disk).folder path = .ok dir') ∧
      (volume.update path disk).snapshot path = disk.snapshot := by
  obtain ⟨dir', hdir', hsame⟩ := hstands dir (by rw [disk_of_folder h])
  have hspans : dir.Spans dir' := .of_enter fun name inner henter =>
    Directory.enter_eq_ok.2 (hsame _ _ (Directory.enter_eq_ok.1 henter))
  obtain ⟨hfolder, hcontents⟩ := folder_update h hdir' hspans
  refine ⟨⟨dir', hfolder⟩, ?_⟩
  rw [snapshot_of_folder hfolder, hcontents, ← Disk.names_of_folder hdir']
  rfl

end Volume

theorem Volume.Keeps.file?_eq {volume changed : Volume} (h : volume.Keeps changed) (path : String) :
    (changed.snapshot path).file? = (volume.snapshot path).file? := by
  funext name
  show Option.map changed.contents.get ((changed.root.below (Path.resolve path)).file? name) =
    Option.map volume.contents.get ((volume.root.below (Path.resolve path)).file? name)
  rw [h.contents, h.below]

theorem Volume.Keeps.whole {volume changed : Volume} {path : String} (h : volume.Keeps changed)
    (hwhole : (volume.snapshot path).Whole) : (changed.snapshot path).Whole := by
  intro name number hfile
  show number < changed.contents.size
  rw [h.contents]
  exact hwhole name number ((h.below _ _).symm.trans hfile)

/-- A name that parses as that of a segment file is no temporary one. -/
theorem FileName.not_isTemporary_of_parseName? {name : String} {file : UInt64 × Half}
    (h : parseName? name = some file) : isTemporary name = false := by
  cases htemporary : isTemporary name with
  | false => rfl
  | true =>
    rw [isTemporary, decide_eq_true_eq] at htemporary
    rw [parseName?] at h
    split at h
    · next stem extension hsplit =>
      rw [hsplit] at htemporary
      cases htemporary
      cases h
    · cases h

namespace Manager

variable {config : Config} {volume : Volume}

theorem onDisk_harmless (config : Config) (volume : Volume)
    (hwhole : (volume.snapshot config.dataDir).Whole) :
    Harmless config (Path.room? config.dataDir) (volume.snapshot config.dataDir).file?
      (volume.onDisk config.dataDir (recover config).run).1
      ((volume.onDisk config.dataDir (recover config).run).2.snapshot config.dataDir).file? := by
  show Harmless _ _ _ ((recover config).run.run (volume.disk config.dataDir)).1
    ((volume.update config.dataDir
      ((recover config).run.run (volume.disk config.dataDir)).2).snapshot config.dataDir).file?
  cases hfolder : volume.folder config.dataDir with
  | error cause =>
    -- A directory that cannot be reached cannot be listed, which comes first.
    obtain ⟨error, henter⟩ := Volume.enter_unreached hfolder
    rw [recover_of_enter henter, Volume.update_unreached hfolder]
    exact Spared.harmless (fun _ => .inl rfl) error
  | ok dir =>
    have hsame := Volume.snapshot_disk hfolder
    rw [← hsame] at hwhole ⊢
    have hends : Ends (recover config).run (volume.disk config.dataDir) _ := ends_recover config hwhole
    obtain ⟨hstands, hharmless⟩ := hends
    rw [(Volume.update_of_stands hfolder hstands).2]
    exact hharmless

/-- **Opening storage destroys nothing that is committed**, whether it succeeds or fails, and whatever the
directory holds. Temporary files may be gone, and halves of segments that a manifest which can be read does
not list, once all that it lists are open; the manifest is replaced exactly if the opening succeeds, by one
that lists the same generations; every other file has the octets that it had. Without a manifest that can be
read no file of a segment is taken away. -/
theorem load_harmless (config : Config) (volume : Volume)
    (hwhole : (volume.snapshot config.dataDir).Whole) :
    Harmless config (Path.room? config.dataDir) (volume.snapshot config.dataDir).file?
        (load config volume).1 ((load config volume).2.snapshot config.dataDir).file? ∧
      ((∀ bytes manifest, (volume.snapshot config.dataDir).file? FileName.manifest = some bytes →
          Manifest.decode bytes ≠ .ok manifest) →
        ∀ name file, FileName.parseName? name = some file →
          ((load config volume).2.snapshot config.dataDir).file? name =
            (volume.snapshot config.dataDir).file? name) := by
  have hharmless : Harmless config (Path.room? config.dataDir) (volume.snapshot config.dataDir).file?
      (load config volume).1 ((load config volume).2.snapshot config.dataDir).file? := by
    have hkeeps := keeps_prepare config volume
    -- The directories that are made on the way have no files.
    rw [← hkeeps.file?_eq config.dataDir]
    replace hwhole := hkeeps.whole hwhole
    unfold load
    split
    · next error prepared hprepare =>
      rw [hprepare]
      exact Spared.harmless (fun _ => .inl rfl) error
    · next prepared hprepare =>
      rw [hprepare] at hwhole ⊢
      exact onDisk_harmless config prepared hwhole
  refine ⟨hharmless, fun hunreadable name file hparse => ?_⟩
  refine (hharmless.others name ?_).resolve_right ?_
  · rintro rfl
    rw [FileName.parseName?_manifest] at hparse
    cases hparse
  · rintro ⟨-, htemporary | ⟨bytes, manifest, hwritten, hdecode, -⟩⟩
    · rw [FileName.not_isTemporary_of_parseName? hparse] at htemporary
      cases htemporary
    · exact hunreadable bytes manifest hwritten hdecode

/-- A data directory with a segment, in which a temporary file and half of another segment are left. -/
def leftBehind : Volume :=
  let (notes, contents) := flushed.contents.add [1, 2, 3]
  let (index, contents) := contents.add [5]
  let files := ("notes.tmp", .file notes) :: (FileName.segment .index 9, .file index) :: flushed.names.entries
  ⟨⟨[("db", .folder files)]⟩, contents⟩

/-- Both are gone once it is opened, and the segment is as it was. -/
theorem load_harmless_leftBehind : ∃ before after : String → Option Bytes, ∃ opened,
    before = (leftBehind.snapshot "db").file? ∧
      after = ((load { dataDir := "db" } leftBehind).2.snapshot "db").file? ∧
      Harmless { dataDir := "db" } none before (.ok opened) after ∧
      before "notes.tmp" = some [1, 2, 3] ∧ after "notes.tmp" = none ∧
      before (FileName.segment .index 9) = some [5] ∧ after (FileName.segment .index 9) = none ∧
      before (FileName.segment .data 1) = some [1, 7] ∧
      after (FileName.segment .data 1) = some [1, 7] := by
  have hwhole : (leftBehind.snapshot "db").Whole := Snapshot.Whole.of_entries (by decide +kernel)
  have hopened : (load { dataDir := "db" } leftBehind).1.isOk = true := by decide +kernel
  obtain ⟨opened, hload⟩ := exists_of_isOk hopened
  obtain ⟨hharmless, -⟩ := load_harmless { dataDir := "db" } leftBehind hwhole
  rw [hload] at hharmless
  exact ⟨_, _, opened, rfl, rfl, hharmless, by decide +kernel⟩

end Manager

end LsmTree
