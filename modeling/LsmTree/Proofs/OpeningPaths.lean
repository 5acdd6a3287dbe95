import LsmTree.Proofs.NewSegments
import LsmTree.Proofs.SegmentDamage

/-!
# Openings at a path

A data directory is opened at its path. Names for which the path leaves too little room are passed over: what
they hold stays as it is, and to the opening it is as if they were the names of directories. All else is as in
an opening of the directory by itself.

* **`Snapshot.holding_shaded`**, **`Snapshot.Unshared.shaded`** — a directory as it is seen at a path;
* **`Manager.load_shown`** — an opening at a path gives what an opening of the directory seen there gives, and
  **`Manager.holding_load_of_fits`**, **`Manager.holding_load_of_long`** — what it leaves under each name;
* **`Manager.load_ignores_leftovers`** — leftovers do not matter if their names are short enough, but
  **`Manager.overlong_leftover_stays`** — one whose name is too long is left and not counted;
* **`Manager.load_idempotent`**, **`Segment.burst_detected_at_path`**, **`Segment.torn_detected_at_path`** —
  opening again, and opening what was damaged, at a path.
-/

namespace LsmTree

/-! ## Directories seen at a path -/

namespace Snapshot

variable {s : Snapshot} {room : Option Nat} {name : String} {bytes : Bytes}

theorem holding_shaded : (s.shaded room).holding name =
    if fitsIn room name = true then s.holding name
    else if name ∈ FileName.all then .folder else .nothing := by
  split
  · next hfits =>
    have hget : (s.shaded room).names.get? name = s.names.get? name := Directory.get?_shaded_of_fits hfits
    rw [holding, hget]
    rfl
  · next hlong =>
    rw [Bool.not_eq_true] at hlong
    have hget : (s.shaded room).names.get? name = if name ∈ FileName.all then some (.folder []) else none := by
      rw [shaded, Directory.get?_shaded, hlong]
      rfl
    split
    · next hmem => exact holding_eq_folder.2 ⟨[], by rw [hget, if_pos hmem]⟩
    · next hother => exact holding_eq_nothing.2 (by rw [hget, if_neg hother])

theorem holding_shaded_of_fits (h : fitsIn room name = true) :
    (s.shaded room).holding name = s.holding name := by
  rw [holding_shaded, if_pos h]

/-- A name that is too long is that of no file. -/
theorem holding_shaded_eq_file : (s.shaded room).holding name = .file bytes ↔
    fitsIn room name = true ∧ s.holding name = .file bytes := by
  rw [holding_shaded]
  split
  · next h => exact ⟨fun hfile => ⟨h, hfile⟩, fun hfile => hfile.2⟩
  · next h =>
    split
    · exact ⟨by rintro ⟨⟩, fun hfile => absurd hfile.1 h⟩
    · exact ⟨by rintro ⟨⟩, fun hfile => absurd hfile.1 h⟩

/-- A name that leads where it led holds what it held, unless the octets of its file have changed. -/
theorem holding_congr {t : Snapshot} (hget : t.names.get? name = s.names.get? name)
    (hfile : t.file? name = s.file? name ∨ t.file? name = none) : t.holding name = s.holding name := by
  cases hnode : s.names.get? name with
  | none => rw [holding_eq_nothing.2 (hget.trans hnode), holding_eq_nothing.2 hnode]
  | some node =>
    cases node with
    | folder entries =>
      rw [holding_eq_folder.2 ⟨entries, hget.trans hnode⟩, holding_eq_folder.2 ⟨entries, hnode⟩]
    | file number =>
      have hholding := holding_of_get?_file (hget.trans hnode)
      have hleft := file?_eq_holding.2 hholding
      rcases hfile with hsame | hnone
      · rw [hholding, file?_eq_holding.1 (hsame.symm.trans hleft)]
      · rw [hnone] at hleft
        cases hleft

theorem Unshared.shaded (hu : s.Unshared) (room : Option Nat) : (s.shaded room).Unshared := by
  have hget : ∀ {name number}, (s.shaded room).names.get? name = some (.file number) →
      s.names.get? name = some (.file number) := by
    intro name number hfile
    rw [← file?_eq_some, Snapshot.shaded, Directory.file?_shaded] at hfile
    split at hfile
    · exact file?_eq_some.1 hfile
    · cases hfile
  exact ⟨fun hfile => hu.made (hget hfile), fun hfile hother => hu.alone (hget hfile) (hget hother)⟩

theorem Unshared.whole (hu : s.Unshared) : s.Whole := fun _ _ hfile => hu.made (file?_eq_some.1 hfile)

end Snapshot

namespace Manager

variable {config : Config} {volume : Volume} {dir : Directory} {name : String} {manager : Manager}
  {segments : List Segment}

/-! ## Opening at a path -/

/-- **An opening at a path** gives what an opening of the directory seen there gives, and leaves what that
leaves; under names that are too long all is as it was. -/
theorem load_shown (h : volume.folder config.dataDir = .ok dir) :
    Agree Eq (load config volume).1 (opening config (volume.shown config.dataDir)).1 ∧
      (load config volume).2.shown config.dataDir = (opening config (volume.shown config.dataDir)).2 ∧
      ∃ dir', (load config volume).2.folder config.dataDir = .ok dir' ∧
        dir.Suits (Path.room? config.dataDir) dir' := by
  have hshadows := Volume.shadows_disk h
  generalize volume.shown config.dataDir = s at hshadows ⊢
  obtain ⟨hagree, hafter⟩ := mirrors_recover config _ _ hshadows
  obtain ⟨hfolder, -⟩ := Volume.folder_update h hafter.reachable hafter.suits.spans
  rw [Volume.load_of_folder h]
  exact ⟨hagree, (Volume.ShadowedBy.update h hafter).shown_eq, _, hfolder, hafter.suits⟩

theorem opening_of_fst {s : Snapshot} {result : Except Error (Manager × List Segment)}
    (h : (opening config s).1 = result) : opening config s = (result, (opening config s).2) :=
  Prod.ext h rfl

theorem load_eq_ok_iff (h : volume.folder config.dataDir = .ok dir) :
    (load config volume).1 = .ok (manager, segments) ↔
      (opening config (volume.shown config.dataDir)).1 = .ok (manager, segments) := by
  obtain ⟨hagree, -⟩ := load_shown h
  revert hagree
  cases (load config volume).1 with
  | error error =>
    cases (opening config (volume.shown config.dataDir)).1 with
    | error other => simp
    | ok opened => exact False.elim
  | ok opened =>
    cases (opening config (volume.shown config.dataDir)).1 with
    | error other => exact False.elim
    | ok other =>
      rintro rfl
      exact Iff.rfl

/-- What is corrupt is told as such. -/
theorem load_eq_corrupt (h : volume.folder config.dataDir = .ok dir) {generation : UInt64}
    {fault : SegmentFault}
    (hopens : (opening config (volume.shown config.dataDir)).1 = .error (.corrupt generation fault)) :
    (load config volume).1 = .error (.corrupt generation fault) := by
  obtain ⟨hagree, -⟩ := load_shown h
  rw [hopens] at hagree
  revert hagree
  cases (load config volume).1 with
  | ok opened => exact False.elim
  | error error =>
    intro hmatches
    rw [Error.Matches.eq hmatches (by rintro cause ⟨⟩)]

/-- **Under a name that is short enough** there is what an opening of the directory leaves. -/
theorem holding_load_of_fits (h : volume.folder config.dataDir = .ok dir)
    (hfits : fitsIn (Path.room? config.dataDir) name = true) :
    ((load config volume).2.snapshot config.dataDir).holding name =
      (opening config (volume.shown config.dataDir)).2.holding name := by
  obtain ⟨-, hshown, -⟩ := load_shown h
  rw [← hshown, Volume.shown, Snapshot.holding_shaded_of_fits hfits]

/-- **Under a name that is too long** there is what was there. -/
theorem holding_load_of_long (h : volume.folder config.dataDir = .ok dir)
    (hwhole : (volume.snapshot config.dataDir).Whole) (hname : name ≠ FileName.manifest)
    (hlong : fitsIn (Path.room? config.dataDir) name = false) :
    ((load config volume).2.snapshot config.dataDir).holding name =
      (volume.snapshot config.dataDir).holding name := by
  obtain ⟨-, -, dir', hfolder', hsuits⟩ := load_shown h
  have hget : ((load config volume).2.snapshot config.dataDir).names.get? name =
      (volume.snapshot config.dataDir).names.get? name := by
    rw [Volume.snapshot_of_folder hfolder', Volume.snapshot_of_folder h]
    exact hsuits.kept name hlong
  have hharmless := onDisk_harmless config volume hwhole
  rw [← Volume.load_of_folder h] at hharmless
  -- The name leads where it led, and a file that is left has its octets.
  refine Snapshot.holding_congr hget ?_
  rcases hharmless.others name hname with hsame | ⟨hnone, -⟩
  · exact .inl hsame
  · exact .inr hnone

/-! ## Leftovers -/

section Leftovers

variable {littered : Volume} {dir' : Directory} {manifest : Manifest} {bytes : Bytes} {s t : Snapshot}
  {room : Option Nat}

/-- Files whose names are short enough are thrown into what is seen at the path as well. -/
theorem added_shaded_iff (hfits : ∀ name, Added s t name → fitsIn room name = true) :
    Added (s.shaded room) (t.shaded room) name ↔ Added s t name := by
  constructor
  · rintro ⟨hnothing, bytes, hfile⟩
    obtain ⟨hshort, hfile⟩ := Snapshot.holding_shaded_eq_file.1 hfile
    rw [Snapshot.holding_shaded_of_fits hshort] at hnothing
    exact ⟨hnothing, bytes, hfile⟩
  · intro hadded
    obtain ⟨hnothing, bytes, hfile⟩ := id hadded
    have hshort := hfits name hadded
    exact ⟨by rw [Snapshot.holding_shaded_of_fits hshort, hnothing], bytes,
      by rw [Snapshot.holding_shaded_of_fits hshort, hfile]⟩

theorem Littered.shaded (h : Littered manifest s t)
    (hfits : ∀ name, Added s t name → fitsIn room name = true) :
    Littered manifest (s.shaded room) (t.shaded room) := by
  refine ⟨h.unshared.shaded room, fun name hkept => ?_,
    fun name hadded => h.leftover name ((added_shaded_iff hfits).1 hadded)⟩
  rw [Snapshot.holding_shaded, Snapshot.holding_shaded, h.same name (mt (added_shaded_iff hfits).2 hkept)]

/-- An opening at a path that succeeds has found the manifest, so there was room for its name. -/
theorem manifest_fits_of_load (h : volume.folder config.dataDir = .ok dir)
    (hu : (volume.snapshot config.dataDir).Unshared)
    (hopens : (load config volume).1 = .ok (manager, segments)) :
    fitsIn (Path.room? config.dataDir) FileName.manifest = true := by
  have hshown : (volume.shown config.dataDir).Unshared := hu.shaded _
  obtain ⟨found, hfound⟩ := manifest?_of_opening hshown (opening_of_fst ((load_eq_ok_iff h).1 hopens))
  cases hfits : fitsIn (Path.room? config.dataDir) FileName.manifest with
  | true => rfl
  | false =>
    rw [Volume.shown, Snapshot.holding_shaded, hfits, if_neg Bool.false_ne_true,
      if_pos FileName.manifest_mem_all] at hfound
    cases hfound

/-- **An opening ignores leftovers** under names that are short enough for its path. If a data directory with
a manifest opens, it opens just as well with any temporary files and any halves of unlisted segments thrown
in, whatever they contain: the same segments are found, what was thrown in is gone, and under every name is
what would have been there without it. Only the next generation that the manifest records may differ: it is
the one without the leftovers or the least past all of them, whichever is greater. -/
theorem load_ignores_leftovers (hfolder : volume.folder config.dataDir = .ok dir)
    (hfolder' : littered.folder config.dataDir = .ok dir')
    (hu : (volume.snapshot config.dataDir).Unshared)
    (hwritten : (volume.snapshot config.dataDir).holding FileName.manifest = .file bytes)
    (hdecode : Manifest.decode bytes = .ok manifest)
    (hlow : ∀ name content half generation,
      (volume.snapshot config.dataDir).holding name = .file content →
      FileName.parseName? name = some (generation, half) → generation.toNat < UInt64.size - 1)
    (hopens : (load config volume).1 = .ok (manager, segments))
    (h : Littered manifest (volume.snapshot config.dataDir) (littered.snapshot config.dataDir))
    (hfits : ∀ name, Added (volume.snapshot config.dataDir) (littered.snapshot config.dataDir) name →
      fitsIn (Path.room? config.dataDir) name = true) :
    ∃ manager', (load config littered).1 = .ok (manager', segments) ∧ manager'.sync = manager.sync ∧
      (∀ name, Added (volume.snapshot config.dataDir) (littered.snapshot config.dataDir) name →
        ((load config littered).2.snapshot config.dataDir).holding name = .nothing) ∧
      (∀ name, name ≠ FileName.manifest →
        ((load config littered).2.snapshot config.dataDir).holding name =
          ((load config volume).2.snapshot config.dataDir).holding name) ∧
      (∃ metas,
        HoldsManifest ((load config volume).2.snapshot config.dataDir)
          (Manifest.current manager.next metas) ∧
        HoldsManifest ((load config littered).2.snapshot config.dataDir)
          (Manifest.current manager'.next metas)) ∧
      IsGreatest {n | n = manager.next.toNat ∨ ∃ half generation,
        Added (volume.snapshot config.dataDir) (littered.snapshot config.dataDir)
          (FileName.segment half generation) ∧ n = generation.toNat + 1} manager'.next.toNat := by
  have hmanifest := manifest_fits_of_load hfolder hu hopens
  have hadded : ∀ {name}, Added (volume.shown config.dataDir) (littered.shown config.dataDir) name ↔
      Added (volume.snapshot config.dataDir) (littered.snapshot config.dataDir) name :=
    added_shaded_iff hfits
  have hshown : (volume.shown config.dataDir).Unshared := hu.shaded _
  have hlittered : Littered manifest (volume.shown config.dataDir) (littered.shown config.dataDir) :=
    h.shaded hfits
  obtain ⟨manager', after', hopens', hsync, hgone, hsame, ⟨metas, ⟨bytes₁, hencode₁, hholds₁⟩,
    ⟨bytes₂, hencode₂, hholds₂⟩⟩, hgreatest⟩ := hlittered.opening hshown
      (by rw [Volume.shown, Snapshot.holding_shaded_of_fits hmanifest, hwritten]) hdecode
      (fun name content half generation hfile =>
        hlow name content half generation (Snapshot.holding_shaded_eq_file.1 hfile).2)
      (opening_of_fst ((load_eq_ok_iff hfolder).1 hopens))
  have hafter : ∀ name, fitsIn (Path.room? config.dataDir) name = true →
      ((load config littered).2.snapshot config.dataDir).holding name = after'.holding name := by
    intro name hshort
    rw [holding_load_of_fits hfolder' hshort, hopens']
  refine ⟨manager', (load_eq_ok_iff hfolder').2 (congrArg Prod.fst hopens'), hsync, fun name hthrown => ?_,
    fun name hname => ?_, ⟨metas, ⟨bytes₁, hencode₁, ?_⟩, ⟨bytes₂, hencode₂, ?_⟩⟩, ?_⟩
  · rw [hafter name (hfits name hthrown)]
    exact hgone name (hadded.2 hthrown)
  · cases hshort : fitsIn (Path.room? config.dataDir) name with
    | true =>
      rw [hafter name hshort, holding_load_of_fits hfolder hshort]
      exact hsame name hname
    | false =>
      -- Nothing was thrown in under a name that is too long, and either opening passes it over.
      have hkept : ¬ Added (volume.snapshot config.dataDir) (littered.snapshot config.dataDir) name :=
        fun hthrown => by
          rw [hfits name hthrown] at hshort
          cases hshort
      rw [holding_load_of_long hfolder' h.unshared.whole hname hshort,
        holding_load_of_long hfolder hu.whole hname hshort, h.same name hkept]
  · rw [holding_load_of_fits hfolder hmanifest]
    exact hholds₁
  · rw [hafter _ hmanifest]
    exact hholds₂
  · simp only [hadded] at hgreatest
    exact hgreatest

/-- A volume with one directory, as given. -/
def housing (s : Snapshot) : Volume := ⟨⟨[("db", .folder s.names.entries)]⟩, s.contents⟩

theorem folder_housing (s : Snapshot) : (housing s).folder "db" = .ok s.names := rfl

theorem snapshot_housing (s : Snapshot) : (housing s).snapshot "db" = s :=
  Volume.snapshot_of_folder (folder_housing s)

/-- What the manifest of a flushed write tells. -/
def told : Manifest := Manifest.current 2 [⟨1, 1, 2, 24, some 3332814365⟩]

/-- A temporary file and half of a segment that is not listed can be thrown into its directory. -/
theorem exists_littered : ∃ littered, Littered told flushed littered ∧
    (∀ half generation, Added flushed littered (FileName.segment half generation) ↔
      half = .index ∧ generation = 9) ∧
    Added flushed littered "notes.tmp" ∧ littered.holding "notes.tmp" = .file [1, 2, 3] ∧
    littered.holding (FileName.segment .index 9) = .file [5] := by
  have hfree : flushed.holding "notes.tmp" = .nothing := by decide +kernel
  have hclean : Littered told flushed flushed := .refl unshared_flushed
  -- One after the other is put where nothing was.
  obtain ⟨noted, hnoted, hnotes⟩ := hclean.put hfree (.inl (by decide +kernel)) [1, 2, 3]
  have hindex : noted.holding (FileName.segment .index 9) = .nothing := by
    rw [hnotes, if_neg (by decide +kernel)]
    decide +kernel
  obtain ⟨littered, hlittered, hhalf⟩ := hnoted.put hindex
    (.inr ⟨.index, 9, rfl, by decide, by decide⟩) [5]
  have hholding : littered.holding "notes.tmp" = .file [1, 2, 3] := by
    rw [hhalf, if_neg (by decide +kernel), hnotes, if_pos rfl]
  refine ⟨littered, hlittered, fun half generation => ⟨?_, ?_⟩, ⟨hfree, _, hholding⟩, hholding,
    by rw [hhalf, if_pos rfl]⟩
  · rintro ⟨hnothing, bytes, hfile⟩
    by_cases hname : FileName.segment half generation = FileName.segment .index 9
    · exact FileName.segment_inj.1 hname
    · have hnotes' : FileName.segment half generation ≠ "notes.tmp" :=
        (FileName.ne_of_isTemporary (by decide +kernel) (FileName.not_isTemporary_segment _ _)).symm
      rw [hhalf, if_neg hname, hnotes, if_neg hnotes', hnothing] at hfile
      cases hfile
  · rintro ⟨rfl, rfl⟩
    exact ⟨by decide +kernel, [5], by rw [hhalf, if_pos rfl]⟩

/-- A temporary file and half of a segment that the manifest does not list, thrown into a data directory,
do not keep its segment from being found, and are gone when it is. The half is counted. -/
theorem load_ignores_leftovers_half : ∃ littered manager manager' segments,
    littered.holding "notes.tmp" = .file [1, 2, 3] ∧
      littered.holding (FileName.segment .index 9) = .file [5] ∧
      (load { dataDir := "db" } (housing flushed)).1 = .ok (manager, segments) ∧ segments.length = 1 ∧
      (load { dataDir := "db" } (housing littered)).1 = .ok (manager', segments) ∧
      ((load { dataDir := "db" } (housing littered)).2.snapshot "db").holding "notes.tmp" = .nothing ∧
      ((load { dataDir := "db" } (housing littered)).2.snapshot "db").holding
        (FileName.segment .index 9) = .nothing ∧
      manager.next.toNat = 2 ∧ manager'.next.toNat = 10 := by
  obtain ⟨littered, hlittered, hadded, hnoted, hholding, hhalf⟩ := exists_littered
  have hdecode : Manifest.decode (Manifest.header told.payload ++ told.payload) = .ok told :=
    Manifest.decode_iff_records.2 ⟨rfl, [], by decide, by rw [List.append_nil]⟩
  have hwritten : flushed.holding FileName.manifest =
      .file (Manifest.header told.payload ++ told.payload) := by decide +kernel
  have hlow : ∀ name content half generation, flushed.holding name = .file content →
      FileName.parseName? name = some (generation, half) → generation.toNat < UInt64.size - 1 :=
    parsed_lt_of_fileNames (by decide +kernel)
  have hroom : ∀ name, fitsIn (Path.room? "db") name = true := fun name => by
    rw [show Path.room? "db" = none by decide +kernel]
    rfl
  have hopened : (load { dataDir := "db" } (housing flushed)).1.toOption.any (fun opened =>
      opened.1.next.toNat = 2 ∧ opened.2.length = 1) = true := by decide +kernel
  cases hopens : (load { dataDir := "db" } (housing flushed)).1 with
  | error error =>
    rw [hopens] at hopened
    cases hopened
  | ok opened =>
    rw [hopens] at hopened
    obtain ⟨hnext, hlength⟩ := of_decide_eq_true hopened
    have hload := @load_ignores_leftovers { dataDir := "db" } (housing flushed) _ opened.1 opened.2
      (housing littered) _ told (Manifest.header told.payload ++ told.payload)
      (folder_housing flushed) (folder_housing littered)
    simp only [snapshot_housing] at hload
    obtain ⟨manager', hopens', -, hgone, -, -, hmem, hupper⟩ :=
      hload unshared_flushed hwritten hdecode hlow hopens hlittered fun name _ => hroom name
    have hcounted := (hadded .index 9).2 ⟨rfl, rfl⟩
    refine ⟨littered, opened.1, manager', opened.2, hholding, hhalf, rfl, hlength, hopens',
      hgone _ hnoted, hgone _ hcounted, hnext, ?_⟩
    have hpast : 10 ≤ manager'.next.toNat := hupper (.inr ⟨.index, 9, hcounted, rfl⟩)
    rcases hmem with heq | ⟨half, generation, hmem, heq⟩
    · omega
    · rw [heq, ((hadded half generation).1 hmem).2]
      rfl

/-- A directory with a manifest that lists nothing. -/
def bare : Snapshot where
  names := Directory.empty.put FileName.manifest (.file 0)
  contents := ⟨[(Manifest.current 1 []).encode.toOption.getD []]⟩

/-- With a data file of generation seven besides, which is empty. -/
def strewn : Snapshot where
  names := bare.names.put (FileName.segment .data 7) (.file 1)
  contents := ⟨[(Manifest.current 1 []).encode.toOption.getD [], []]⟩

theorem get?_bare : bare.names.get? name = if name = FileName.manifest then some (.file 0) else none :=
  Directory.get?_put ..

theorem get?_strewn : strewn.names.get? name =
    if name = FileName.segment .data 7 then some (.file 1) else bare.names.get? name :=
  Directory.get?_put ..

theorem holding_strewn : strewn.holding name =
    if name = FileName.segment .data 7 then .file [] else bare.holding name := by
  rw [Snapshot.holding, get?_strewn, Snapshot.holding, get?_bare]
  split_ifs <;> rfl

theorem unshared_strewn : strewn.Unshared := by
  have hfile : ∀ {name number}, strewn.names.get? name = some (.file number) →
      name = FileName.segment .data 7 ∧ number = 1 ∨ name = FileName.manifest ∧ number = 0 := by
    intro name number h
    rw [get?_strewn, get?_bare] at h
    split_ifs at h with hsegment hmanifest
    · cases h
      exact .inl ⟨hsegment, rfl⟩
    · cases h
      exact .inr ⟨hmanifest, rfl⟩
  refine ⟨fun h => ?_, fun h h' => ?_⟩
  · rcases hfile h with ⟨-, rfl⟩ | ⟨-, rfl⟩ <;> decide
  · rcases hfile h with ⟨rfl, rfl⟩ | ⟨rfl, rfl⟩ <;> rcases hfile h' with ⟨rfl, hnumber⟩ | ⟨rfl, hnumber⟩
    · rfl
    · cases hnumber
    · cases hnumber
    · rfl

/-- The one is the other with a leftover thrown in. -/
theorem littered_strewn : Littered (Manifest.current 1 []) bare strewn := by
  have hadded : ∀ {name}, Added bare strewn name ↔ name = FileName.segment .data 7 := by
    intro name
    rw [Added, holding_strewn]
    split
    · next hname =>
      subst hname
      simp [Snapshot.holding_eq_nothing, get?_bare, (FileName.segment_ne_manifest .data 7)]
    · next hname =>
      refine ⟨fun ⟨hnothing, bytes, hfile⟩ => ?_, fun h => absurd h hname⟩
      rw [hnothing] at hfile
      cases hfile
  refine ⟨unshared_strewn, fun name hkept => ?_, fun name hthrown => ?_⟩
  · rw [holding_strewn, if_neg (mt hadded.2 hkept)]
  · rw [hadded.1 hthrown]
    exact .inr ⟨.data, 7, rfl, by decide, by simp [Manifest.current]⟩

/-- Both open at a path that leaves eighteen octets for a name, and nothing is counted. -/
theorem load_strewn {path : String} {s : Snapshot} (hmem : s ∈ [bare, strewn])
    (hfolder : (housing s).folder path = .ok s.names) (hroom : Path.room? path = some 18) :
    (load { dataDir := path } (housing s)).1 = .ok (⟨true, 1⟩, []) := by
  have hrun : ∀ s ∈ [bare, strewn],
      ((recover {}).run.run ⟨.ok s.names, s.contents, some 18, none, none, []⟩).1 = .ok (⟨true, 1⟩, []) := by
    decide +kernel
  have hdisk : (housing s).disk path = ⟨.ok s.names, s.contents, some 18, none, none, []⟩ := by
    rw [Volume.disk_of_folder hfolder, hroom]
    rfl
  have hload : load { dataDir := path } (housing s) = (housing s).onDisk path (recover {}).run :=
    Volume.load_of_folder hfolder
  rw [hload, Volume.onDisk, hdisk]
  exact hrun s hmem

/-- **A leftover whose name is too long stays.** At a path that leaves eighteen octets for a name, the
directory with the leftover opens as the one without, but the file is not taken away, and the generation that
is handed out next is the first. -/
theorem overlong_leftover_stays :
    let config : Config := { dataDir := Path.lengthened "db" 2037 }
    HoldsManifest ((housing bare).snapshot config.dataDir) (Manifest.current 1 []) ∧
      Littered (Manifest.current 1 []) ((housing bare).snapshot config.dataDir)
        ((housing strewn).snapshot config.dataDir) ∧
      (load config (housing bare)).1 = .ok (⟨true, 1⟩, []) ∧
      (load config (housing strewn)).1 = .ok (⟨true, 1⟩, []) ∧
      ((housing bare).snapshot config.dataDir).holding (FileName.segment .data 7) = .nothing ∧
      ((load config (housing strewn)).2.snapshot config.dataDir).holding (FileName.segment .data 7) =
        .file [] := by
  intro config
  have hfolder : ∀ s, (housing s).folder config.dataDir = .ok s.names :=
    fun s => Volume.folder_lengthened (folder_housing s) (by decide)
  have hsnapshot : ∀ s, (housing s).snapshot config.dataDir = s :=
    fun s => Volume.snapshot_of_folder (hfolder s)
  have hroom : Path.room? config.dataDir = some 18 :=
    Path.room?_lengthened_succ "db" 2036 (by decide) (by decide)
  rw [hsnapshot, hsnapshot]
  refine ⟨⟨_, rfl, by decide +kernel⟩, littered_strewn, load_strewn (by simp) (hfolder _) hroom,
    load_strewn (by simp) (hfolder _) hroom,
    Snapshot.holding_eq_nothing.2 (by rw [get?_bare, if_neg (FileName.segment_ne_manifest _ _)]), ?_⟩
  have hwhole : ((housing strewn).snapshot config.dataDir).Whole := by
    rw [hsnapshot]
    exact unshared_strewn.whole
  rw [holding_load_of_long (hfolder strewn) hwhole (FileName.segment_ne_manifest _ _)
    (by rw [hroom]; decide +kernel), hsnapshot, holding_strewn, if_pos rfl]

end Leftovers

/-! ## Opening again -/

/-- **Opening is idempotent at a path** as well: what an opening leaves opens again with the same segments and
the same next generation, and without a change under any name. -/
theorem load_idempotent {opened : Volume} (h : volume.folder config.dataDir = .ok dir)
    (hu : (volume.snapshot config.dataDir).Unshared)
    (hlow : ∀ name content half generation,
      (volume.snapshot config.dataDir).holding name = .file content →
      FileName.parseName? name = some (generation, half) → generation.toNat < UInt64.size - 1)
    (hload : load config volume = (.ok (manager, segments), opened)) :
    ∃ again, load config opened = (.ok (manager, segments), again) ∧
      ∀ name, (again.snapshot config.dataDir).holding name =
        (opened.snapshot config.dataDir).holding name := by
  have hopens : (load config volume).1 = .ok (manager, segments) := congrArg Prod.fst hload
  have hmanifest := manifest_fits_of_load h hu hopens
  obtain ⟨hready, -⟩ := ready_of_load config volume hu.whole
    (fun name content generation half hfile => hlow name content half generation
      (Snapshot.file?_eq_holding.1 hfile)) hload
  obtain ⟨-, hshown, dir', hfolder, -⟩ := load_shown h
  rw [hload] at hshown hfolder
  have hsettled : Settled config manager segments (opened.shown config.dataDir) := by
    rw [hshown]
    exact opening_settles (hu.shaded _ : (volume.shown config.dataDir).Unshared)
      (fun name content half generation hfile =>
        hlow name content half generation (Snapshot.holding_shaded_eq_file.1 hfile).2)
      (opening_of_fst ((load_eq_ok_iff h).1 hopens))
  obtain ⟨after, hagain, hsame⟩ := hsettled.opening
  refine ⟨_, Prod.ext ((load_eq_ok_iff hfolder).2 (congrArg Prod.fst hagain)) rfl, fun name => ?_⟩
  cases hfits : fitsIn (Path.room? config.dataDir) name with
  | true =>
    rw [holding_load_of_fits hfolder hfits, hagain, hsame, Volume.shown,
      Snapshot.holding_shaded_of_fits hfits]
  | false =>
    refine holding_load_of_long hfolder hready.vacant.whole ?_ hfits
    rintro rfl
    rw [hmanifest] at hfits
    cases hfits

end Manager

/-! ## Damaged files -/

/-- The manifest has the shortest name. -/
theorem FileName.fits_manifest_of_segment {room : Option Nat} {half : Half} {generation : UInt64}
    (h : fitsIn room (segment half generation) = true) : fitsIn room manifest = true := by
  cases room with
  | none => rfl
  | some room =>
    have hsize : manifest.utf8ByteSize ≤ (segment half generation).utf8ByteSize := by
      have hlead : manifest.utf8ByteSize = (String.ofList lead).utf8ByteSize := by decide +kernel
      rw [segment, List.append_assoc, String.ofList_append, String.utf8ByteSize_append, hlead]
      exact Nat.le_add_right _ _
    simp only [fitsIn, Option.all_some, decide_eq_true_eq] at h ⊢
    omega

namespace Segment

variable {volume : Volume} {path : String} {dir : Directory} {generation : UInt64} {entries : List Entry}
  {data index damaged : Bytes} {recorded : Option SegmentMeta} {info : SegmentMeta} {written : Disk}
  {verified : Bool} {segment : Segment}

/-- The segment of a generation is not opened at a path, because its files are found to be corrupt. -/
def RefusedAt (volume : Volume) (path : String) (generation : UInt64) (recorded : Option SegmentMeta)
    (verified : Bool) : Prop :=
  ∃ fault, (volume.onDisk path (load generation recorded verified).run).1 =
    .error (.corrupt generation fault)

theorem Files.refusedAt (h : Files (volume.disk path).snapshot generation data index)
    (hfits : ∀ half, (volume.disk path).fits (FileName.segment half generation) = true)
    (hnot : ∀ segment, ofFiles generation recorded verified data index ≠ .ok segment) :
    RefusedAt volume path generation recorded verified := by
  have hload := onDisk_load hfits h recorded verified
  cases hfiles : ofFiles generation recorded verified data index with
  | ok segment => exact absurd hfiles (hnot segment)
  | error fault =>
    rw [hfiles] at hload
    exact ⟨fault, hload⟩

/-- Files whose names are short enough for a path are seen there. -/
theorem Files.shown (h : Files (volume.snapshot path) generation data index)
    (hfits : ∀ half, fitsIn (Path.room? path) (FileName.segment half generation) = true) :
    Files (volume.shown path) generation data index :=
  ⟨Snapshot.holding_shaded_eq_file.2 ⟨hfits .data, h.data⟩,
    Snapshot.holding_shaded_eq_file.2 ⟨hfits .index, h.index⟩⟩

/-- A segment that opens at a path opens in the directory seen there. -/
theorem opened_of_onDisk_load (h : volume.folder path = .ok dir)
    (hload : (volume.onDisk path (load generation recorded verified).run).1 = .ok segment) :
    opened (volume.shown path).holding generation recorded verified = .ok segment := by
  have hshadows := Volume.shadows_disk h
  generalize volume.shown path = s at hshadows ⊢
  obtain ⟨hagree, -⟩ := mirrors_load generation recorded verified _ _ hshadows
  replace hload : ((load generation recorded verified).run.run (volume.disk path)).1 = .ok segment := hload
  rw [hload] at hagree
  cases hrun : (load generation recorded verified).run.run (.ofSnapshot s) with
  | mk result after =>
    rw [hrun] at hagree
    cases result with
    | error error => exact hagree.elim
    | ok other =>
      obtain rfl : segment = other := hagree
      exact opened_of_load hrun

/-- **A burst in the data is found at a path**, by the segment and by the opening of the directory. -/
theorem burst_detected_at_path (h : Builder.Wrote generation entries info written)
    (hwritten : Files written.snapshot generation data index) (hburst : Bytes.Burst 4 data damaged)
    (hfits : ∀ half, (volume.disk path).fits (FileName.segment half generation) = true)
    (hdamaged : Files (volume.disk path).snapshot generation damaged index) :
    RefusedAt volume path generation (some info) true ∧
      ∀ (config : Config) (bytes : Bytes) (manifest : Manifest), config.dataDir = path →
        volume.folder path = .ok dir → (volume.snapshot path).Unshared → config.verifyChecksums = true →
        (volume.snapshot path).holding FileName.manifest = .file bytes →
        Manifest.decode bytes = .ok manifest → info ∈ manifest.segments →
        (∀ other ∈ manifest.segments, other ≠ info → ∃ segment,
          (volume.onDisk path (load other.generation (some other) true).run).1 = .ok segment) →
        ∃ fault, (Manager.load config volume).1 = .error (.corrupt generation fault) := by
  obtain ⟨-, -, rfl, hfiles⟩ := h.spec
  obtain ⟨rfl, rfl⟩ := hwritten.unique hfiles
  refine ⟨hdamaged.refusedAt hfits (ofFiles_burst hburst), ?_⟩
  rintro config bytes manifest rfl hfolder hu hverified hmanifest hdecode hmem hothers
  rw [Volume.snapshot_disk hfolder] at hdamaged
  obtain ⟨fault, hrefused⟩ := (hdamaged.shown hfits).refused (ofFiles_burst hburst)
  -- There is room for the names of the segment, and so for that of the manifest.
  have hlisted : (volume.shown config.dataDir).holding FileName.manifest = .file bytes :=
    Snapshot.holding_shaded_eq_file.2 ⟨FileName.fits_manifest_of_segment (hfits .data), hmanifest⟩
  refine ⟨fault, Manager.load_eq_corrupt hfolder ?_⟩
  refine opening_of_refused (hu.shaded _ : (volume.shown config.dataDir).Unshared) hlisted hdecode hmem ?_
    fun other hother hne => ?_
  · rw [hverified]
    exact opened_of_load hrefused
  · obtain ⟨segment, hload⟩ := hothers other hother hne
    rw [hverified]
    exact ⟨segment, opened_of_onDisk_load hfolder hload⟩

/-- **Torn files are found at a path**, even if nothing was recorded of the segment. -/
theorem torn_detected_at_path (h : Builder.Wrote generation entries info written)
    (hwritten : Files written.snapshot generation data index) (hsome : data ≠ [])
    (hlength : data.length < Layout.offsetSize)
    (hfits : ∀ half, (volume.disk path).fits (FileName.segment half generation) = true) :
    (∀ damaged verified, Files (volume.disk path).snapshot generation damaged index →
      damaged <+: data ∨ data <+: damaged → damaged ≠ data →
      RefusedAt volume path generation none verified) ∧
    (∀ damaged verified, Files (volume.disk path).snapshot generation data damaged →
      damaged <+: index → damaged ≠ index → RefusedAt volume path generation none verified) ∧
    (∀ damaged, Files (volume.disk path).snapshot generation data damaged →
      index <+: damaged → damaged ≠ index → RefusedAt volume path generation none true) := by
  obtain ⟨hentries, hasc, -, hfiles⟩ := h.spec
  obtain ⟨rfl, rfl⟩ := hwritten.unique hfiles
  refine ⟨?_, ?_, ?_⟩
  · intro damaged verified hdamaged htorn hne
    exact hdamaged.refusedAt hfits (ofFiles_torn_data hlength htorn hne)
  · intro damaged verified hdamaged hbegins hne
    exact hdamaged.refusedAt hfits (ofFiles_short_index hasc hsome hlength hbegins hne)
  · intro damaged hdamaged hbegins hne
    exact hdamaged.refusedAt hfits (ofFiles_long_index hentries hlength hbegins hne)

end Segment

end LsmTree
