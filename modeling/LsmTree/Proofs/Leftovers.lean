import LsmTree.Proofs.Consistency
import Mathlib.Order.Bounds.Basic

/-!
# What opening makes of leftovers

Writes cut short leave temporary files and segments that no manifest lists. Where there is a manifest,
opening a directory does not depend on them:

* **`Manager.resumed_isGreatest`** — the next generation is past the manifest's and past every one found;
* **`Manager.Sweeps`**, **`Manager.runs_sweeps`** — all that an opening does to a directory with a
  manifest, name by name, and what it takes to succeed;
* **`Manager.Littered`** — a directory with any number of leftovers thrown in;
* **`Manager.Littered.opening`** — an opening ends as it would have ended without them.
-/

namespace LsmTree

open Snapshot (Removed)

namespace Manager

variable {start : Disk} {manifest : Manifest} {s t u : Snapshot} {name : String} {half : Half}
  {generation : UInt64}

/-! ## The generation that is handed out next -/

theorem insertGeneration_sorted {sorted : List UInt64} (h : sorted.Pairwise (· < ·)) :
    (insertGeneration generation sorted).Pairwise (· < ·) := by
  induction sorted with
  | nil => simp [insertGeneration]
  | cons head rest ih =>
    obtain ⟨hhead, hrest⟩ := List.pairwise_cons.1 h
    rw [insertGeneration]
    split
    · next hlt =>
      refine List.pairwise_cons.2 ⟨fun other hother => ?_, h⟩
      rcases List.mem_cons.1 hother with rfl | hother
      · exact hlt
      · exact UInt64.lt_trans hlt (hhead other hother)
    · split
      · exact h
      · next hnot hne =>
        have hgreater : head < generation :=
          UInt64.lt_of_le_of_ne (UInt64.not_lt.1 hnot) (Ne.symm hne)
        refine List.pairwise_cons.2 ⟨fun other hother => ?_, ih hrest⟩
        rcases mem_insertGeneration.1 hother with rfl | hother
        · exact hgreater
        · exact hhead other hother

theorem generations_sorted (found : Found) : (generations found).Pairwise (· < ·) := by
  induction found with
  | nil => exact List.Pairwise.nil
  | cons file rest ih => exact insertGeneration_sorted ih

/-- The last generation found is the highest. -/
theorem le_of_getLast? {found : Found} {highest : UInt64}
    (hlast : (generations found).getLast? = some highest)
    (hmem : generation ∈ generations found) : generation ≤ highest := by
  have hsorted := generations_sorted found
  obtain ⟨before, hsplit⟩ := List.getLast?_eq_some_iff.1 hlast
  rw [hsplit] at hsorted hmem
  rcases List.mem_append.1 hmem with hbefore | hlast
  · exact UInt64.le_of_lt ((List.pairwise_append.1 hsorted).2.2 _ hbefore _ List.mem_cons_self)
  · rw [List.mem_singleton.1 hlast]
    exact UInt64.le_refl _

/-- **The next generation** is the manifest's or the least one past all that were found, whichever is
greater, and at least one. -/
theorem resumed_isGreatest {found : Found} (next : UInt64)
    (hlow : ∀ generation ∈ generations found, generation.toNat < UInt64.size - 1) :
    IsGreatest {n | n = 1 ∨ n = next.toNat ∨ ∃ generation ∈ generations found,
      n = generation.toNat + 1} (resumed found next).toNat := by
  rw [resumed, toNat_max, toNat_max, show (1 : UInt64).toNat = 1 from rfl]
  cases hlast : (generations found).getLast? with
  | none =>
    have hnil := List.getLast?_eq_none_iff.1 hlast
    rw [Option.getD_none, show ((0 : UInt64) + 1).toNat = 1 from rfl, hnil]
    constructor
    · show _ ∨ _ ∨ _
      omega
    · rintro n (rfl | rfl | ⟨generation, hmem, -⟩)
      · omega
      · omega
      · cases hmem
  | some highest =>
    have hmem := List.mem_of_getLast? hlast
    have hsucc : (highest + 1).toNat = highest.toNat + 1 := by
      have := hlow highest hmem
      exact Kept.toNat_succ (by omega)
    rw [Option.getD_some, hsucc]
    constructor
    · -- The highest generation found is one of the generations found.
      by_cases hle : next.toNat ≤ highest.toNat + 1
      · exact .inr (.inr ⟨highest, hmem, by omega⟩)
      · exact .inr (.inl (by omega))
    · rintro n (rfl | rfl | ⟨generation, hgeneration, rfl⟩)
      · omega
      · omega
      · have := UInt64.le_iff_toNat_le.1 (le_of_getLast? hlast hgeneration)
        omega

/-! ## Name by name -/

/-- The names that a manifest does not vouch for: those of temporary files, and those of the halves of a
segment that it does not list. -/
def Stray (manifest : Manifest) (name : String) : Prop :=
  FileName.isTemporary name = true ∨ ∃ half generation, name = FileName.segment half generation ∧
    ∀ recorded ∈ manifest.segments, recorded.generation ≠ generation

theorem Stray.ne_manifest (h : Stray manifest name) : name ≠ FileName.manifest := by
  rintro rfl
  rcases h with htemporary | ⟨half, generation, hname, -⟩
  · rw [FileName.not_isTemporary_manifest] at htemporary
    cases htemporary
  · exact FileName.segment_ne_manifest half generation hname.symm

theorem not_stray_listed {recorded : SegmentMeta} (hmem : recorded ∈ manifest.segments) :
    ¬ Stray manifest (FileName.segment half recorded.generation) := by
  rintro (htemporary | ⟨half', generation, hname, hunlisted⟩)
  · rw [FileName.not_isTemporary_segment] at htemporary
    cases htemporary
  · exact hunlisted recorded hmem (FileName.segment_inj.1 hname).2

/-- After the scan no temporary file is left, and every other name is as it was. -/
theorem scanned_holding (h : Removed (leftovers s.names.fileNames) s t) :
    t.holding name =
      if FileName.isTemporary name = true then (s.holding name).withoutFile else s.holding name := by
  rw [h.holding]
  by_cases htemporary : FileName.isTemporary name = true
  · rw [if_pos htemporary]
    by_cases hmem : name ∈ leftovers s.names.fileNames
    · rw [if_pos hmem]
    · -- A temporary name that the scan passes over has no file to lose.
      rw [if_neg hmem]
      cases hholding : s.holding name with
      | file bytes =>
        have hfile := Snapshot.mem_fileNames.2 ⟨bytes, hholding⟩
        exact absurd (List.mem_filter.2 ⟨hfile, htemporary⟩) hmem
      | _ => rfl
  · rw [if_neg htemporary]
    exact if_neg fun hmem => htemporary (List.mem_filter.1 hmem).2

theorem mem_uncommitted_iff {found : Found} : generation ∈ uncommitted manifest found ↔
    generation ∈ generations found ∧ ∀ recorded ∈ manifest.segments, recorded.generation ≠ generation := by
  simp [uncommitted]

/-- No stray name has a file any more, and every other name is as it was. -/
structure Swept (manifest : Manifest) (s t : Snapshot) : Prop where
  stray : ∀ name, Stray manifest name → t.holding name = (s.holding name).withoutFile
  same : ∀ name, ¬ Stray manifest name → t.holding name = s.holding name

/-- So it is once the segments that the manifest does not list are gone as well. -/
theorem Swept.of_removed (hscanned : Removed (leftovers s.names.fileNames) s t)
    (hremoved : Removed ((uncommitted manifest (found s.names.fileNames)).flatMap FileName.halves) t u) :
    Swept manifest s u := by
  constructor
  · rintro name (htemporary | ⟨half, generation, rfl, hunlisted⟩)
    · rw [hremoved.holding, scanned_holding hscanned, if_pos htemporary, Holding.withoutFile_withoutFile,
        ite_self]
    · have hkept : t.holding (FileName.segment half generation) =
          s.holding (FileName.segment half generation) := by
        rw [scanned_holding hscanned, if_neg (by simp [FileName.not_isTemporary_segment])]
      rw [hremoved.holding, hkept]
      by_cases hmem : FileName.segment half generation ∈
          (uncommitted manifest (found s.names.fileNames)).flatMap FileName.halves
      · exact if_pos hmem
      · rw [if_neg hmem]
        -- Had the name a file, the scan would have found its generation.
        cases hholding : s.holding (FileName.segment half generation) with
        | file bytes =>
          have hfound := mem_generations_found (Snapshot.mem_fileNames.2 ⟨bytes, hholding⟩)
          refine absurd (List.mem_flatMap.2 ⟨generation, ?_, FileName.mem_halves.2 ⟨half, rfl⟩⟩) hmem
          exact mem_uncommitted_iff.2 ⟨hfound, hunlisted⟩
        | _ => rfl
  · intro name hstray
    have hother : name ∉ (uncommitted manifest (found s.names.fileNames)).flatMap FileName.halves := by
      intro hmem
      obtain ⟨generation, hgeneration, hname⟩ := List.mem_flatMap.1 hmem
      obtain ⟨half, rfl⟩ := FileName.mem_halves.1 hname
      exact hstray (.inr ⟨half, generation, rfl, (mem_uncommitted_iff.1 hgeneration).2⟩)
    rw [hremoved.holding, if_neg hother, scanned_holding hscanned,
      if_neg fun htemporary => hstray (.inl htemporary)]

/-- A directory in the place of the new manifest was there before. -/
theorem Swept.folder_iff (h : Swept manifest s t) :
    t.holding (FileName.temporary FileName.manifest) = .folder ↔
      s.holding (FileName.temporary FileName.manifest) = .folder := by
  rw [h.stray _ (.inl FileName.isTemporary_temporary_manifest), Holding.withoutFile_eq_folder]

/-! ## An opening as a whole -/

/-- What an opening makes of a directory with a manifest: the segments listed are open, the manifest is
written anew, stray files are gone, and every other name holds what it held. -/
structure Sweeps (config : Config) (manifest : Manifest) (s : Snapshot) (manager : Manager)
    (segments : List Segment) (after : Snapshot) : Prop where
  loaded : listed s.holding config.verifyChecksums manifest.segments = .ok segments.reverse
  manager_eq : manager = ⟨config.syncWrites, resumed (found s.names.fileNames) manifest.next⟩
  written : ∃ bytes,
    (Manifest.current manager.next (segments.reverse.map Segment.info)).encode = .ok bytes ∧
      after.holding FileName.manifest = .file bytes
  free : s.holding (FileName.temporary FileName.manifest) ≠ .folder
  stray : ∀ name, Stray manifest name → after.holding name = (s.holding name).withoutFile
  same : ∀ name, ¬ Stray manifest name → name ≠ FileName.manifest → after.holding name = s.holding name

/-- What an opening needs of a directory with a manifest: segments that open, a manifest of them that
can be written, and no directory in the way of it. -/
structure Openable (config : Config) (manifest : Manifest) (s : Snapshot) (segments : List Segment) :
    Prop where
  loaded : listed s.holding config.verifyChecksums manifest.segments = .ok segments.reverse
  encodes : ∃ next bytes, (Manifest.current next (segments.reverse.map Segment.info)).encode = .ok bytes
  free : s.holding (FileName.temporary FileName.manifest) ≠ .folder

theorem Sweeps.openable {config : Config} {manager : Manager} {segments : List Segment}
    (h : Sweeps config manifest s manager segments t) : Openable config manifest s segments := by
  obtain ⟨bytes, hencode, -⟩ := h.written
  exact ⟨h.loaded, ⟨_, bytes, hencode⟩, h.free⟩

/-- What is found in a directory with a manifest: if all that is listed opens, the directory is swept. -/
theorem Finds.swept {verified : Bool} {bytes : Bytes} {outcome : Except Error (List Segment × UInt64)}
    (hfinds : Finds verified (found s.names.fileNames) t outcome u)
    (hscanned : Removed (leftovers s.names.fileNames) s t)
    (hwritten : s.holding FileName.manifest = .file bytes)
    (hdecode : Manifest.decode bytes = .ok manifest) :
    outcome = (fun segments => (segments, manifest.next)) <$>
        listed s.holding verified manifest.segments ∧
      ∀ opened, outcome = .ok opened → Swept manifest s u := by
  have hmanifest : t.holding FileName.manifest = .file bytes := by
    rw [scanned_holding hscanned, if_neg (by simp [FileName.not_isTemporary_manifest]), hwritten]
  -- The scan leaves the files of segments alone, so the same segments open after it.
  have hlisted : listed t.holding verified manifest.segments =
      listed s.holding verified manifest.segments := by
    refine listed_congr (fun recorded _ half => ?_) _
    rw [scanned_holding hscanned, if_neg (by simp [FileName.not_isTemporary_segment])]
  refine ⟨?_, fun opened hopened => .of_removed hscanned (hfinds.removed hmanifest hdecode hopened)⟩
  rw [hfinds.written hmanifest, recorded, hdecode, ← hlisted]
  rfl

/-- A manifest of the segments found completes what an opening makes of a directory. -/
theorem Swept.sweeps {config : Config} {segments : List Segment} (h : Swept manifest s t)
    (hloaded : listed s.holding config.verifyChecksums manifest.segments = .ok segments.reverse)
    (hinstalled : Manifest.Installed (Manifest.current (resumed (found s.names.fileNames) manifest.next)
      (segments.reverse.map Segment.info)) t u) :
    Sweeps config manifest s ⟨config.syncWrites, resumed (found s.names.fileNames) manifest.next⟩
      segments u := by
  have hfree := mt h.folder_iff.2 hinstalled.free
  refine ⟨hloaded, rfl, hinstalled.written, hfree, fun name hstray => ?_, fun name hstray hname => ?_⟩
  · by_cases hname : name = FileName.temporary FileName.manifest
    · subst hname
      rw [hinstalled.temporary, Holding.withoutFile_eq_nothing.2 hfree]
    · rw [hinstalled.same name hstray.ne_manifest hname, h.stray name hstray]
  · have hother : name ≠ FileName.temporary FileName.manifest := by
      rintro rfl
      exact hstray (.inl FileName.isTemporary_temporary_manifest)
    rw [hinstalled.same name hname hother, h.same name hstray]

/-- **An opening of a directory with a manifest** sweeps it, and succeeds whenever it can. -/
theorem runs_sweeps (config : Config) (hu : start.snapshot.Unshared) {bytes : Bytes}
    (hwritten : start.snapshot.holding FileName.manifest = .file bytes)
    (hdecode : Manifest.decode bytes = .ok manifest) :
    Runs (recover config).run start
      (fun result after => match result with
        | .ok (manager, segments) =>
          Sweeps config manifest start.snapshot manager segments after.snapshot
        | .error _ => ∀ segments, ¬ Openable config manifest start.snapshot segments)
      Snapshot.Unshared := by
  refine (runs_parts config hu).mono ?_ fun _ ht => ht.unshared
  rintro result after ⟨scanned, hscanned, swept, outcome, -, hfinds, houtcome⟩ -
  obtain ⟨hfound, hswept⟩ := hfinds.swept hscanned hwritten hdecode
  cases hlisted : listed start.snapshot.holding config.verifyChecksums manifest.segments with
  | error error =>
    rw [hlisted] at hfound
    subst hfound
    cases result with
    | ok opened => exact houtcome.elim
    | error fault =>
      intro segments hopenable
      rw [hopenable.loaded] at hlisted
      cases hlisted
  | ok segments =>
    rw [hlisted] at hfound
    subst hfound
    replace hswept := hswept _ rfl
    cases result with
    | ok opened =>
      obtain ⟨manager, opened⟩ := opened
      obtain ⟨rfl, rfl, hinstalled⟩ := houtcome
      exact hswept.sweeps (by rw [hlisted, List.reverse_reverse]) hinstalled
    | error fault =>
      intro segments' hopenable
      rw [hopenable.loaded] at hlisted
      cases hlisted
      -- Storing the manifest fails for one of three reasons, and none of them is there.
      obtain ⟨-, ⟨error, hrefused⟩ | hreason | hreason⟩ := houtcome
      · obtain ⟨other, bytes', hencode⟩ := hopenable.encodes
        obtain ⟨bytes'', hencode'⟩ := Manifest.encode_current hencode
          (resumed (found start.snapshot.names.fileNames) manifest.next)
        rw [List.reverse_reverse, hencode'] at hrefused
        cases hrefused
      · exact hopenable.free (hswept.folder_iff.1 hreason)
      · rw [hswept.same _ fun hstray => hstray.ne_manifest rfl, hwritten] at hreason
        cases hreason

/-! ## Leftovers -/

/-- The names that a write cut short can leave: those of temporary files, and those of the halves of a
segment that the manifest does not list, of any generation but the last one of all. -/
def Leftover (manifest : Manifest) (name : String) : Prop :=
  FileName.isTemporary name = true ∨ ∃ half generation, name = FileName.segment half generation ∧
    generation.toNat < UInt64.size - 1 ∧
    ∀ recorded ∈ manifest.segments, recorded.generation ≠ generation

theorem Leftover.stray (h : Leftover manifest name) : Stray manifest name := by
  rcases h with htemporary | ⟨half, generation, hname, -, hunlisted⟩
  · exact .inl htemporary
  · exact .inr ⟨half, generation, hname, hunlisted⟩

/-- A file that is in the second directory and in whose place the first one has nothing. -/
def Added (s t : Snapshot) (name : String) : Prop :=
  s.holding name = .nothing ∧ ∃ bytes, t.holding name = .file bytes

/-- The second directory is the first one with files thrown in, under names that a write cut short can
leave; what they contain does not matter. -/
structure Littered (manifest : Manifest) (s t : Snapshot) : Prop where
  unshared : t.Unshared
  same : ∀ name, ¬ Added s t name → t.holding name = s.holding name
  leftover : ∀ name, Added s t name → Leftover manifest name

theorem Littered.stray_holding (h : Littered manifest s t) (name : String) :
    (t.holding name).withoutFile = (s.holding name).withoutFile := by
  by_cases hadded : Added s t name
  · obtain ⟨hnothing, bytes, hfile⟩ := hadded
    rw [hnothing, hfile]
    rfl
  · rw [h.same name hadded]

theorem Littered.same_of_not_stray (h : Littered manifest s t) (hstray : ¬ Stray manifest name) :
    t.holding name = s.holding name :=
  h.same name fun hadded => hstray (h.leftover name hadded).stray

theorem Littered.openable {config : Config} {segments : List Segment} (h : Littered manifest s t)
    (hs : Openable config manifest s segments) : Openable config manifest t segments := by
  refine ⟨?_, hs.encodes, ?_⟩
  · rw [← hs.loaded]
    refine listed_congr (fun recorded hmem half => ?_) _
    exact h.same_of_not_stray (not_stray_listed hmem)
  · rw [← Holding.withoutFile_eq_nothing, h.stray_holding, Holding.withoutFile_eq_nothing]
    exact hs.free

theorem Littered.refl (hu : s.Unshared) : Littered manifest s s :=
  ⟨hu, fun _ _ => rfl, fun name ⟨hnothing, bytes, hfile⟩ => by
    rw [hnothing] at hfile
    cases hfile⟩

/-- One more leftover, whatever it contains. -/
theorem Littered.put (h : Littered manifest s t) (hnothing : t.holding name = .nothing)
    (hleftover : Leftover manifest name) (bytes : Bytes) :
    ∃ u, Littered manifest s u ∧
      ∀ other, u.holding other = if other = name then .file bytes else t.holding other := by
  have hfree : t.holding name ≠ .folder := by simp [hnothing]
  obtain ⟨number, made, -, hmade, hname, -, hholding⟩ := Snapshot.create_of_free h.unshared hfree
  obtain ⟨hunshared, hset⟩ := Snapshot.set_holding hmade hname bytes
  have hput : ∀ other, Snapshot.holding ⟨made.names, made.contents.set number bytes⟩ other =
      if other = name then .file bytes else t.holding other := by
    intro other
    rw [hset, hholding]
    split <;> rfl
  -- What was free with the other leftovers there was free without them.
  have hfirst : s.holding name = .nothing := by
    by_cases hadded : Added s t name
    · exact hadded.1
    · rw [← h.same name hadded, hnothing]
  refine ⟨_, ⟨hunshared, fun other hother => ?_, fun other hother => ?_⟩, hput⟩
  · by_cases hsame : other = name
    · subst hsame
      exact absurd ⟨hfirst, bytes, by rw [hput, if_pos rfl]⟩ hother
    · rw [hput, if_neg hsame]
      refine h.same other fun hadded => hother ⟨hadded.1, ?_⟩
      rw [hput, if_neg hsame]
      exact hadded.2
  · by_cases hsame : other = name
    · rw [hsame]
      exact hleftover
    · obtain ⟨hfree, hfile⟩ := hother
      rw [hput, if_neg hsame] at hfile
      exact h.leftover other ⟨hfree, hfile⟩

theorem mem_generations_found_iff {names : List String} : generation ∈ generations (found names) ↔
    ∃ name ∈ names, FileName.isTemporary name = false ∧
      ∃ half, FileName.parseName? name = some (generation, half) := by
  rw [mem_generations]
  constructor
  · rintro ⟨half, hmem⟩
    obtain ⟨name, hname, hparse⟩ := List.mem_filterMap.1 hmem
    obtain ⟨hname, htemporary⟩ := List.mem_filter.1 hname
    exact ⟨name, hname, by simpa using htemporary, half, hparse⟩
  · rintro ⟨name, hname, htemporary, half, hparse⟩
    exact ⟨half, List.mem_filterMap.2 ⟨name, List.mem_filter.2 ⟨hname, by simp [htemporary]⟩, hparse⟩⟩

/-- The scan finds what it would have found, and the generations of the leftovers. -/
theorem Littered.mem_generations (h : Littered manifest s t) :
    generation ∈ generations (found t.names.fileNames) ↔
      generation ∈ generations (found s.names.fileNames) ∨
        ∃ half, Added s t (FileName.segment half generation) := by
  rw [mem_generations_found_iff, mem_generations_found_iff]
  constructor
  · rintro ⟨name, hname, htemporary, half, hparse⟩
    obtain ⟨bytes, hfile⟩ := Snapshot.mem_fileNames.1 hname
    by_cases hadded : Added s t name
    · refine .inr ?_
      rcases h.leftover name hadded with htemporary' | ⟨half', generation', rfl, -⟩
      · rw [htemporary] at htemporary'
        cases htemporary'
      · rw [FileName.parseName?_segment] at hparse
        cases hparse
        exact ⟨half, hadded⟩
    · rw [h.same name hadded] at hfile
      exact .inl ⟨name, Snapshot.mem_fileNames.2 ⟨bytes, hfile⟩, htemporary, half, hparse⟩
  · rintro (⟨name, hname, htemporary, half, hparse⟩ | ⟨half, hadded⟩)
    · obtain ⟨bytes, hfile⟩ := Snapshot.mem_fileNames.1 hname
      have hkept : ¬ Added s t name := fun ⟨hnothing, _⟩ => by
        rw [hnothing] at hfile
        cases hfile
      rw [← h.same name hkept] at hfile
      exact ⟨name, Snapshot.mem_fileNames.2 ⟨bytes, hfile⟩, htemporary, half, hparse⟩
    · obtain ⟨-, hfile⟩ := hadded
      exact ⟨_, Snapshot.mem_fileNames.2 hfile, FileName.not_isTemporary_segment _ _, half,
        FileName.parseName?_segment half generation⟩

/-- So an opening resumes where it would have resumed, or past the highest generation thrown in. -/
theorem Littered.resumed_isGreatest (h : Littered manifest s t) (next : UInt64)
    (hlow : ∀ generation ∈ generations (found s.names.fileNames),
      generation.toNat < UInt64.size - 1) :
    IsGreatest {n | n = (resumed (found s.names.fileNames) next).toNat ∨
      ∃ half generation, Added s t (FileName.segment half generation) ∧ n = generation.toNat + 1}
      (resumed (found t.names.fileNames) next).toNat := by
  have hlow' : ∀ generation ∈ generations (found t.names.fileNames),
      generation.toNat < UInt64.size - 1 := by
    intro generation hmem
    rcases h.mem_generations.1 hmem with hmem | ⟨half, hadded⟩
    · exact hlow generation hmem
    · rcases h.leftover _ hadded with htemporary | ⟨half', generation', hname, hgeneration, -⟩
      · rw [FileName.not_isTemporary_segment] at htemporary
        cases htemporary
      · rw [(FileName.segment_inj.1 hname).2]
        exact hgeneration
  obtain ⟨hmem, hupper⟩ := Manager.resumed_isGreatest next hlow
  obtain ⟨hmem', hupper'⟩ := Manager.resumed_isGreatest next hlow'
  -- What was resumed at without leftovers is a candidate with them, so it is not greater.
  have hle : (resumed (found s.names.fileNames) next).toNat ≤
      (resumed (found t.names.fileNames) next).toNat := by
    apply hupper'
    rcases hmem with hone | hnext | ⟨generation, hfound, heq⟩
    · exact .inl hone
    · exact .inr (.inl hnext)
    · exact .inr (.inr ⟨generation, h.mem_generations.2 (.inl hfound), heq⟩)
  constructor
  · rcases hmem' with hone | hnext | ⟨generation, hfound, heq⟩
    · exact .inl (Nat.le_antisymm (hone ▸ hupper (.inl rfl)) hle)
    · exact .inl (Nat.le_antisymm (hnext ▸ hupper (.inr (.inl rfl))) hle)
    · rcases h.mem_generations.1 hfound with hfound | ⟨half, hadded⟩
      · exact .inl (Nat.le_antisymm (heq ▸ hupper (.inr (.inr ⟨generation, hfound, rfl⟩))) hle)
      · exact .inr ⟨half, generation, hadded, heq⟩
  · rintro n (rfl | ⟨half, generation, hadded, rfl⟩)
    · exact hle
    · exact hupper' (.inr (.inr ⟨generation, h.mem_generations.2 (.inr ⟨half, hadded⟩), rfl⟩))

/-! ## Openings compared -/

/-- What an opening of a directory gives, and the directory after it. -/
def opening (config : Config) (s : Snapshot) : Except Error (Manager × List Segment) × Snapshot :=
  let done := (recover config).run.run (Disk.ofSnapshot s)
  (done.1, done.2.snapshot)

/-- The manifest is the one that the directory holds. -/
def HoldsManifest (s : Snapshot) (manifest : Manifest) : Prop :=
  ∃ bytes, manifest.encode = .ok bytes ∧ s.holding FileName.manifest = .file bytes

theorem opening_sweeps (config : Config) {bytes : Bytes} (hu : s.Unshared)
    (hwritten : s.holding FileName.manifest = .file bytes)
    (hdecode : Manifest.decode bytes = .ok manifest) :
    match opening config s with
    | (.ok (manager, segments), after) => Sweeps config manifest s manager segments after
    | (.error _, _) => ∀ segments, ¬ Openable config manifest s segments := by
  have hruns : Runs _ (Disk.ofSnapshot s) _ _ := runs_sweeps config hu hwritten hdecode
  obtain ⟨hpost, -⟩ := hruns.apply (Disk.plain_ofSnapshot s)
  show match (((recover config).run.run (Disk.ofSnapshot s)).1,
    ((recover config).run.run (Disk.ofSnapshot s)).2.snapshot) with
    | (.ok (manager, segments), after) => Sweeps config manifest s manager segments after
    | (.error _, _) => ∀ segments, ¬ Openable config manifest s segments
  revert hpost
  cases ((recover config).run.run (Disk.ofSnapshot s)).1 with
  | error error => exact id
  | ok opened => exact id

/-- **An opening ignores leftovers.** If a directory with a manifest opens, it opens just as well with any
temporary files and any halves of unlisted segments thrown in, whatever they contain: the same segments
are found, what was thrown in is gone, and under every name is what would have been there without it. Only
the next generation that the manifest records may differ: it is the one without the leftovers or the least
past all of them, whichever is greater. -/
theorem Littered.opening {config : Config} {bytes : Bytes} {manager : Manager} {segments : List Segment}
    {after : Snapshot} (h : Littered manifest s t) (hu : s.Unshared)
    (hwritten : s.holding FileName.manifest = .file bytes)
    (hdecode : Manifest.decode bytes = .ok manifest)
    (hlow : ∀ name content half generation, s.holding name = .file content →
      FileName.parseName? name = some (generation, half) → generation.toNat < UInt64.size - 1)
    (hopens : Manager.opening config s = (.ok (manager, segments), after)) :
    ∃ manager' after', Manager.opening config t = (.ok (manager', segments), after') ∧
      manager'.sync = manager.sync ∧
      (∀ name, Added s t name → after'.holding name = .nothing) ∧
      (∀ name, name ≠ FileName.manifest → after'.holding name = after.holding name) ∧
      (∃ metas, HoldsManifest after (Manifest.current manager.next metas) ∧
        HoldsManifest after' (Manifest.current manager'.next metas)) ∧
      IsGreatest {n | n = manager.next.toNat ∨ ∃ half generation,
        Added s t (FileName.segment half generation) ∧ n = generation.toNat + 1}
        manager'.next.toNat := by
  have hsweeps := opening_sweeps config hu hwritten hdecode
  rw [hopens] at hsweeps
  have hlow' : ∀ generation ∈ generations (found s.names.fileNames),
      generation.toNat < UInt64.size - 1 := by
    intro generation hmem
    obtain ⟨name, hname, -, half, hparse⟩ := mem_generations_found_iff.1 hmem
    obtain ⟨content, hfile⟩ := Snapshot.mem_fileNames.1 hname
    exact hlow name content half generation hfile hparse
  -- The manifest is no leftover, so it is the same with them.
  have hwritten' : t.holding FileName.manifest = .file bytes := by
    rw [h.same_of_not_stray fun hstray => hstray.ne_manifest rfl, hwritten]
  have hsweeps' := opening_sweeps config h.unshared hwritten' hdecode
  cases hopens' : Manager.opening config t with
  | mk result after' =>
    rw [hopens'] at hsweeps'
    cases result with
    | error error => exact absurd (h.openable hsweeps.openable) (hsweeps' segments)
    | ok opened =>
      obtain ⟨manager', segments'⟩ := opened
      have hsegments : segments' = segments := by
        have hloaded := hsweeps'.loaded.symm.trans (h.openable hsweeps.openable).loaded
        exact List.reverse_inj.1 (Except.ok.inj hloaded)
      subst hsegments
      refine ⟨manager', after', rfl, ?_, fun name hadded => ?_, fun name hname => ?_,
        ⟨_, hsweeps.written, hsweeps'.written⟩, ?_⟩
      · rw [hsweeps.manager_eq, hsweeps'.manager_eq]
      · rw [hsweeps'.stray name (h.leftover name hadded).stray, h.stray_holding, hadded.1]
        rfl
      · by_cases hstray : Stray manifest name
        · rw [hsweeps'.stray name hstray, hsweeps.stray name hstray, h.stray_holding]
        · rw [hsweeps'.same name hstray hname, hsweeps.same name hstray hname,
            h.same_of_not_stray hstray]
      · rw [hsweeps.manager_eq, hsweeps'.manager_eq]
        exact h.resumed_isGreatest manifest.next hlow'

/-- The generations that the names in a directory tell of can be read off a list of them. -/
theorem parsed_lt_of_fileNames {s : Snapshot} {limit : Nat}
    (h : ∀ name ∈ s.names.fileNames, ∀ file ∈ FileName.parseName? name, file.1.toNat < limit)
    (name : String) (content : Bytes) (half : Half) (generation : UInt64)
    (hfile : s.holding name = .file content) (hparse : FileName.parseName? name = some (generation, half)) :
    generation.toNat < limit :=
  h name (Snapshot.mem_fileNames.2 ⟨content, hfile⟩) _ hparse

/-- A write that is flushed, in a directory that is left behind. -/
def flushed : Snapshot :=
  (World.empty.run [.load {}, .upsert (.put [1] [7]), .flush, .crash]).2.dir

theorem unshared_flushed : flushed.Unshared :=
  (World.Reached.start.run _).consistent (by decide +kernel) |>.unshared

end Manager

end LsmTree
