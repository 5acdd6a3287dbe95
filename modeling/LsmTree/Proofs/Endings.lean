import LsmTree.Proofs.Runs
import LsmTree.Proofs.SegmentNames

/-!
# What operations leave of files

What an operation does to the files of a directory can be told without assuming anything of the directory:
its path may leave little room, it may be out of reach, and names may share a file.

* **`Ends`** — what an operation ends with, in whatever state it is run;
* **`Looks`** — an operation that changes nothing, such as **`Manifest.looks_load`**;
* **`Disk.Pruned`** — a directory in which nothing has changed but that some files are gone, as
  **`Disk.ends_unlink`** and **`Segment.ends_remove`** leave it;
* **`Disk.Became`** — a directory that has come to other names, as **`Disk.ends_create`**,
  **`Disk.ends_rename`** and **`Disk.ends_unlink_file`** leave it;
* **`Manifest.ends_store`** — the manifest is replaced, or every file is as it was.
-/

namespace LsmTree

variable {σ α β : Type}

/-! ## What operations end with -/

/-- Run in a state, an operation ends with `post`. -/
def Ends (operation : StateM σ α) (state : σ) (post : α → σ → Prop) : Prop :=
  post (operation.run state).1 (operation.run state).2

namespace Ends

variable {operation : StateM σ α} {state : σ} {post post' : α → σ → Prop}

theorem pure (a : α) (h : post a state) : Ends (Pure.pure a) state post := h

theorem mono (h : Ends operation state post) (himp : ∀ a after, post a after → post' a after) :
    Ends operation state post' := himp _ _ h

theorem and (h : Ends operation state post) (h' : Ends operation state post') :
    Ends operation state fun a after => post a after ∧ post' a after := ⟨h, h'⟩

theorem bind {next : α → StateM σ β} {last : β → σ → Prop} (h : Ends operation state post)
    (hnext : ∀ a after, post a after → Ends (next a) after last) :
    Ends (operation >>= next) state last := hnext _ _ h

theorem of_run_eq {operation' : StateM σ α} (heq : operation.run state = operation'.run state)
    (h : Ends operation' state post) : Ends operation state post := by
  unfold Ends
  rw [heq]
  exact h

theorem map {f : α → β} {last : β → σ → Prop} (h : Ends operation state fun a after => last (f a) after) :
    Ends (f <$> operation) state last := h

section Failing

variable {operation : ExceptT Error (StateM σ) α} {middle : Except Error α → σ → Prop}

theorem lift {operation : StateM σ α} {last : Except Error α → σ → Prop}
    (h : Ends operation state fun a after => last (.ok a) after) :
    Ends (liftM operation : ExceptT Error (StateM σ) α).run state last := h

theorem andThen {next : α → ExceptT Error (StateM σ) β} {last : Except Error β → σ → Prop}
    (h : Ends operation.run state middle)
    (hok : ∀ a after, middle (.ok a) after → Ends (next a).run after last)
    (herror : ∀ error after, middle (.error error) after → last (.error error) after) :
    Ends (operation >>= next).run state last := by
  show Ends (operation.run >>= ExceptT.bindCont next) state last
  refine bind h ?_
  rintro (error | a) after hmiddle
  · exact herror error after hmiddle
  · exact hok a after hmiddle

theorem liftThen {operation : StateM σ α} {next : α → ExceptT Error (StateM σ) β}
    {last : Except Error β → σ → Prop} (h : Ends operation state post)
    (hnext : ∀ a after, post a after → Ends (next a).run after last) :
    Ends ((liftM operation : ExceptT Error (StateM σ) α) >>= next).run state last := hnext _ _ h

theorem tryCatch {handler : Error → ExceptT Error (StateM σ) α} {last : Except Error α → σ → Prop}
    (h : Ends operation.run state middle) (hok : ∀ a after, middle (.ok a) after → last (.ok a) after)
    (herror : ∀ error after, middle (.error error) after → Ends (handler error).run after last) :
    Ends (tryCatch operation handler : ExceptT Error (StateM σ) α).run state last := by
  rw [ExceptT.run_tryCatch]
  refine bind h ?_
  rintro (error | a) after hmiddle
  · exact herror error after hmiddle
  · exact hok a after hmiddle

end Failing

theorem orElse {operation : DiskM α} {cleanUp : StateM Disk Unit} {disk : Disk}
    {middle last : Except Error α → Disk → Prop} (h : Ends operation.run disk middle)
    (hok : ∀ a after, middle (.ok a) after → last (.ok a) after)
    (herror : ∀ error after, middle (.error error) after →
      Ends cleanUp after fun _ done => last (.error error) done) :
    Ends (Disk.orElse operation cleanUp).run disk last :=
  tryCatch h hok herror

end Ends

/-! ## Reading -/

section Reading

variable {disk : Disk} {name : String} {names : List String} {dir : Directory} {cause : OsError}

theorem Disk.names_of_folder (h : disk.folder = .ok dir) : disk.snapshot.names = dir := by
  rw [Disk.snapshot, h]
  rfl

theorem Disk.reach_eq_ok : disk.reach names = .ok dir ↔
    (∀ name ∈ names, disk.fits name = true) ∧ disk.folder = .ok dir := by
  rw [Disk.reach, ← List.all_eq_true]
  split <;> simp [*]

/-- Where nothing can be found, no name is that of a file. -/
theorem Disk.file?_of_reach (h : disk.reach names = .error .noEntry) (name : String) :
    disk.snapshot.file? name = none := by
  rw [Disk.reach] at h
  split at h
  · rw [Snapshot.file?, Disk.snapshot, h]
    rfl
  · cases h

/-- **Reading** changes nothing and gives the octets of a file; what is missing is no file. -/
theorem Disk.ends_read : Ends (Disk.read name).run disk fun result after =>
    after = disk ∧ match result with
      | .ok bytes => disk.snapshot.file? name = some bytes
      | .error error => error = .io .noEntry → disk.snapshot.file? name = none := by
  simp only [Ends, Disk.read, ExceptT.run, ExceptT.mk, StateT.run]
  cases hreach : disk.reach [name] with
  | error cause =>
    refine ⟨rfl, fun hnone => ?_⟩
    cases hnone
    exact file?_of_reach hreach name
  | ok dir =>
    have hfile : disk.snapshot.file? name = (dir.file? name).map disk.contents.get := by
      rw [Snapshot.file?, names_of_folder (reach_eq_ok.1 hreach).2]
      rfl
    dsimp only
    rw [hfile, Directory.file?]
    split <;> simp [*]

/-- **Syncing a directory** that can be reached changes nothing, and fails just for the reason it has. -/
theorem Disk.ends_sync (hfolder : disk.folder = .ok dir) :
    Ends Disk.sync.run disk fun result after => after = disk ∧ match result with
      | .ok _ => disk.syncFault? = none
      | .error error => ∃ cause, disk.syncFault? = some cause ∧ error = .io cause := by
  unfold Ends
  rw [Disk.run_sync hfolder]
  cases disk.syncFault? with
  | none => exact ⟨rfl, rfl⟩
  | some cause => exact ⟨rfl, cause, rfl, rfl⟩

theorem Disk.ends_fileLength (file : Nat) :
    Ends (Disk.fileLength file) disk fun length after =>
      length = (disk.contents.get file).length ∧ after = disk := ⟨rfl, rfl⟩

/-- An operation changes nothing, and what it gives, if it gives anything, is as told. -/
def Looks (operation : DiskM α) (disk : Disk) (found : α → Prop) : Prop :=
  Ends operation.run disk fun result after => after = disk ∧ ∀ a, result = .ok a → found a

namespace Looks

variable {operation : DiskM α} {found : α → Prop}

theorem pure (a : α) (h : found a) : Looks (Pure.pure a) disk found :=
  ⟨rfl, fun _ hok => Except.ok.inj hok ▸ h⟩

theorem throw (error : Error) : Looks (MonadExcept.throw error) disk found :=
  ⟨rfl, by rintro _ ⟨⟩⟩

theorem andThen {next : α → DiskM β} {last : β → Prop} (h : Looks operation disk found)
    (hnext : ∀ a, found a → Looks (next a) disk last) : Looks (operation >>= next) disk last := by
  refine Ends.andThen h ?_ ?_
  · rintro a after ⟨rfl, ha⟩
    exact hnext a (ha a rfl)
  · rintro error after ⟨rfl, -⟩
    exact Looks.throw error

/-- Errors may be answered with others. -/
theorem relabel {handler : Error → DiskM α} (h : Looks operation disk found)
    (hhandler : ∀ error, Looks (handler error) disk found) :
    Looks (tryCatch operation handler) disk found := by
  refine Ends.tryCatch h (fun _ _ h => h) ?_
  rintro error after ⟨rfl, -⟩
  exact hhandler error

end Looks

theorem Disk.looks_read :
    Looks (Disk.read name) disk fun bytes => disk.snapshot.file? name = some bytes := by
  refine Disk.ends_read.mono ?_
  rintro (error | bytes) after ⟨rfl, hbytes⟩
  · exact Looks.throw error
  · exact Looks.pure bytes hbytes

theorem Disk.looks_enter : Looks Disk.enter disk (disk.snapshot.names = ·) := by
  simp only [Looks, Ends, Disk.enter, ExceptT.run, ExceptT.mk, StateT.run]
  cases hfolder : disk.folder with
  | error cause => exact Looks.throw _
  | ok dir =>
    dsimp only
    cases disk.barred with
    | some cause => exact Looks.throw _
    | none => exact Looks.pure dir (Disk.names_of_folder hfolder)

theorem Disk.looks_sync : Looks Disk.sync disk fun _ => True := by
  refine Looks.andThen Disk.looks_enter fun _ _ => ?_
  have hget : Ends (get : StateM Disk Disk) disk fun found after => found = disk ∧ after = disk :=
    ⟨rfl, rfl⟩
  refine Ends.liftThen hget ?_
  rintro _ _ ⟨rfl, rfl⟩
  split
  · exact Looks.throw _
  · exact Looks.pure () trivial

/-- The manifest that is loaded is the one in its file; without the file there is none. -/
theorem Manifest.looks_load : Looks Manifest.load disk fun
    | none => disk.snapshot.file? FileName.manifest = none
    | some manifest => ∃ bytes, disk.snapshot.file? FileName.manifest = some bytes ∧
        Manifest.decode bytes = .ok manifest := by
  -- A missing file is the one error that is answered, with no manifest.
  have hread : Ends (some <$> Disk.read FileName.manifest : DiskM (Option Bytes)).run disk
      fun result after => after = disk ∧
        (∀ found, result = .ok found → disk.snapshot.file? FileName.manifest = found) ∧
        (result = .error (.io .noEntry) → disk.snapshot.file? FileName.manifest = none) := by
    refine Ends.andThen Disk.ends_read ?_ ?_
    · rintro bytes after ⟨rfl, hbytes⟩
      exact .pure _ ⟨rfl, fun found hok => Except.ok.inj hok ▸ hbytes, by rintro ⟨⟩⟩
    · rintro error after ⟨rfl, hnone⟩
      exact ⟨rfl, by rintro _ ⟨⟩, fun hmissing => hnone (Except.error.inj hmissing)⟩
  refine Looks.andThen (?missing : Looks _ disk fun found =>
    disk.snapshot.file? FileName.manifest = found) ?_
  case missing =>
    refine Ends.tryCatch hread ?_ ?_
    · rintro found after ⟨rfl, hfound, -⟩
      exact Looks.pure found (hfound found rfl)
    · rintro error after ⟨rfl, -, hnone⟩
      split
      · exact Looks.pure none (hnone rfl)
      · exact Looks.throw _
  rintro (_ | bytes) hfound
  · exact .pure none hfound
  · dsimp only
    cases hdecode : Manifest.decode bytes with
    | error error => exact .throw error
    | ok manifest => exact .pure (some manifest) ⟨bytes, hfound, hdecode⟩

end Reading

/-! ## Taking files away -/

theorem Snapshot.file?_eq_holding {s : Snapshot} {name : String} {bytes : Bytes} :
    s.file? name = some bytes ↔ s.holding name = .file bytes := by
  simp [Snapshot.file?, Snapshot.holding_eq_file, Snapshot.file?_eq_some]

/-- Every name leads to a file that was made. -/
def Snapshot.Whole (s : Snapshot) : Prop :=
  ∀ name number, s.names.file? name = some number → number < s.contents.size

/-- Whether every name leads to a file that was made can be told from the entries. -/
theorem Snapshot.Whole.of_entries {s : Snapshot} (h : s.names.entries.all (fun entry => match entry.2 with
    | .file number => decide (number < s.contents.size)
    | .folder _ => true) = true) : s.Whole := by
  intro name number hfile
  obtain ⟨entry, hentry, hnode⟩ := Option.map_eq_some_iff.1 (Snapshot.file?_eq_some.1 hfile)
  have hmade := List.all_eq_true.1 h entry (List.mem_of_find?_eq_some hentry)
  rw [hnode] at hmade
  exact of_decide_eq_true hmade

namespace Disk

variable {disk start middle after : Disk} {gone other : String → Prop} {name : String}

/-- The directory can still be reached, and so can those in it. -/
def Stands (start after : Disk) : Prop :=
  ∀ dir, start.folder = .ok dir → ∃ dir', after.folder = .ok dir' ∧
    ∀ name entries, dir.get? name = some (.folder entries) → dir'.get? name = some (.folder entries)

theorem Stands.trans (h : start.Stands middle) (h' : middle.Stands after) : start.Stands after := by
  intro dir hdir
  obtain ⟨dir', hdir', hsame⟩ := h dir hdir
  obtain ⟨last, hlast, hsame'⟩ := h' dir' hdir'
  exact ⟨last, hlast, fun name entries hfolder => hsame' name entries (hsame name entries hfolder)⟩

/-- Nothing has changed in a directory but that some files are gone. -/
structure Pruned (gone : String → Prop) (start after : Disk) : Prop where
  room : after.room = start.room
  contents : after.contents = start.contents
  reachable : ∀ dir, start.folder = .ok dir → ∃ dir', after.folder = .ok dir'
  get : ∀ name, after.snapshot.names.get? name = start.snapshot.names.get? name ∨
    gone name ∧ after.snapshot.names.get? name = none ∧
      ∃ number, start.snapshot.names.get? name = some (.file number)

namespace Pruned

theorem refl (gone : String → Prop) (disk : Disk) : Pruned gone disk disk :=
  ⟨rfl, rfl, fun dir hdir => ⟨dir, hdir⟩, fun _ => .inl rfl⟩

theorem mono (h : Pruned gone start after) (himp : ∀ name, gone name → other name) :
    Pruned other start after :=
  ⟨h.room, h.contents, h.reachable, fun name => (h.get name).imp id (.imp (himp name) id)⟩

theorem trans (h : Pruned gone start middle) (h' : Pruned gone middle after) : Pruned gone start after := by
  refine ⟨h'.room.trans h.room, h'.contents.trans h.contents, fun dir hdir => ?_, fun name => ?_⟩
  · obtain ⟨dir', hdir'⟩ := h.reachable dir hdir
    exact h'.reachable dir' hdir'
  · rcases h'.get name with hsame | ⟨hgone, hnone, number, hfile⟩
    · rw [hsame]
      exact h.get name
    · -- A file that goes in the second part was there after the first one, so it was there at the start.
      rcases h.get name with hsame | ⟨-, hnone', -⟩
      · exact .inr ⟨hgone, hnone, number, hsame ▸ hfile⟩
      · rw [hnone'] at hfile
        cases hfile

theorem fits (h : Pruned gone start after) (name : String) : after.fits name = start.fits name := by
  rw [Disk.fits, h.room, Disk.fits]

/-- A name that is no file's does not become one. -/
theorem noFile (h : Pruned gone start after) (hnone : start.snapshot.names.file? name = none) :
    after.snapshot.names.file? name = none := by
  rcases h.get name with hsame | ⟨-, hgone, -⟩
  · rw [Directory.file?, hsame, ← Directory.file?, hnone]
  · rw [Directory.file?, hgone]

theorem file? (h : Pruned gone start after) (name : String) :
    after.snapshot.file? name = start.snapshot.file? name ∨
      gone name ∧ after.snapshot.file? name = none := by
  rcases h.get name with hsame | ⟨hgone, hnone, -⟩
  · refine .inl ?_
    rw [Snapshot.file?, Snapshot.file?, Directory.file?, hsame, ← Directory.file?]
    show _ = Option.map start.contents.get _
    rw [← h.contents]
    rfl
  · refine .inr ⟨hgone, ?_⟩
    rw [Snapshot.file?, Directory.file?, hnone]
    rfl

theorem whole (h : Pruned gone start after) (hwhole : start.snapshot.Whole) : after.snapshot.Whole := by
  intro name number hfile
  rw [show after.snapshot.contents = start.snapshot.contents from h.contents]
  refine hwhole name number ?_
  rcases h.get name with hsame | ⟨-, hnone, -⟩
  · rw [Directory.file?, ← hsame, ← Directory.file?, hfile]
  · rw [Directory.file?, hnone] at hfile
    cases hfile

theorem stands (h : Pruned gone start after) : start.Stands after := by
  intro dir hdir
  obtain ⟨dir', hdir'⟩ := h.reachable dir hdir
  refine ⟨dir', hdir', fun name entries hfolder => ?_⟩
  rw [← names_of_folder hdir] at hfolder
  rw [← names_of_folder hdir']
  rcases h.get name with hsame | ⟨-, -, number, hfile⟩
  · rw [hsame, hfolder]
  · rw [hfile] at hfolder
    cases hfolder

end Pruned

/-- **Taking a name away**, if it is short enough, leaves no file of that name. -/
theorem ends_unlink (name : String) : Ends (attempt (.unlink name)) disk fun _ after =>
    Pruned (· = name) disk after ∧
      (disk.fits name = true → after.snapshot.names.file? name = none) := by
  simp only [Ends, attempt, run, mutate, perform, Mutation.names, ExceptT.run, ExceptT.mk, StateT.run]
  cases hreach : disk.reach [name] with
  | error cause =>
    -- A short name is out of reach only with its directory, in which nothing is found then.
    refine ⟨.refl _ _, fun hfits => ?_⟩
    have hfolder : disk.folder = .error cause := by
      rw [← hreach, reach, if_pos (by simp [hfits])]
    rw [snapshot, hfolder]
    rfl
  | ok dir =>
    obtain ⟨-, hfolder⟩ := reach_eq_ok.1 hreach
    have hnames := names_of_folder hfolder
    dsimp only
    rw [Snapshot.apply, Directory.unlink]
    cases hget : dir.get? name with
    | none =>
      refine ⟨.refl _ _, fun _ => ?_⟩
      show disk.snapshot.names.file? name = none
      rw [hnames, Directory.file?, hget]
    | some node =>
      cases node with
      | folder entries =>
        refine ⟨.refl _ _, fun _ => ?_⟩
        show disk.snapshot.names.file? name = none
        rw [hnames, Directory.file?, hget]
      | file number =>
        refine ⟨⟨rfl, rfl, fun _ _ => ⟨_, rfl⟩, fun other => ?_⟩, fun _ => ?_⟩
        · show (dir.erase name).get? other = _ ∨ _ ∧ (dir.erase name).get? other = none ∧ _
          rw [hnames, Directory.get?_erase]
          by_cases hother : other = name
          · subst hother
            exact .inr ⟨rfl, if_pos rfl, number, hget⟩
          · exact .inl (if_neg hother)
        · show (dir.erase name).file? name = none
          rw [Directory.file?, Directory.get?_erase, if_pos rfl]

end Disk

theorem Segment.ends_remove {disk : Disk} (generation : UInt64) :
    Ends (Segment.remove generation) disk fun _ after =>
      Disk.Pruned (· ∈ FileName.halves generation) disk after := by
  have hhalf : ∀ (half : Half) (name : String), name = FileName.segment half generation →
      name ∈ FileName.halves generation := fun half name hname => FileName.mem_halves.2 ⟨half, hname⟩
  refine Ends.bind (Disk.ends_unlink _) fun _ middle hdata => ?_
  refine Ends.mono (Disk.ends_unlink _) fun _ after hindex => ?_
  exact (hdata.1.mono (hhalf .data)).trans (hindex.1.mono (hhalf .index))

/-! ## Storing the manifest -/

section Storing

variable {disk : Disk} {name target : String} {dir : Directory} {number : Nat} {bytes : Bytes}

/-- The disk has come to other names and contents; its path is as it was. -/
def Disk.Became (disk : Disk) (dir : Directory) (contents : Contents) (after : Disk) : Prop :=
  ∃ issued, after = { disk with folder := .ok dir, contents, issued }

namespace Disk.Became

variable {start after : Disk} {dir' : Directory} {contents contents' : Contents}

theorem folder (h : disk.Became dir contents after) : after.folder = .ok dir := by
  obtain ⟨issued, rfl⟩ := h
  rfl

theorem contents_eq (h : disk.Became dir contents after) : after.contents = contents := by
  obtain ⟨issued, rfl⟩ := h
  rfl

theorem trans (h : start.Became dir contents disk) (h' : disk.Became dir' contents' after) :
    start.Became dir' contents' after := by
  obtain ⟨issued, rfl⟩ := h
  obtain ⟨issued', rfl⟩ := h'
  exact ⟨issued', rfl⟩

theorem fits (h : start.Became dir contents disk) (name : String) : disk.fits name = start.fits name := by
  obtain ⟨issued, rfl⟩ := h
  rfl

theorem syncFault?_eq (h : start.Became dir contents disk) : disk.syncFault? = start.syncFault? := by
  obtain ⟨issued, rfl⟩ := h
  rfl

end Disk.Became

/-- **Creating a file** where there is none makes a new one, unless its name is taken or cannot be looked up. -/
theorem Disk.ends_create (hfree : disk.fits name = true → disk.snapshot.names.file? name = none) :
    Ends (Disk.create name).run disk fun result after => match result with
      | .ok number => number = disk.contents.size ∧ disk.fits name = true ∧
          ∃ dir, disk.folder = .ok dir ∧ dir.get? name = none ∧
            disk.Became (dir.put name (.file number)) (disk.contents.add []).2 after
      | .error _ => after = disk ∧ ∀ dir, disk.fits name = true → disk.folder = .ok dir →
          dir.get? name ≠ none := by
  simp only [Ends, Disk.create, Disk.perform, Mutation.names, ExceptT.run, ExceptT.mk, StateT.run]
  cases hreach : disk.reach [name] with
  | error cause =>
    refine ⟨rfl, fun dir hfits hfolder => ?_⟩
    cases hreach.symm.trans (Disk.reach_eq_ok.2 ⟨by simpa using hfits, hfolder⟩)
  | ok dir =>
    obtain ⟨hfits, hfolder⟩ := Disk.reach_eq_ok.1 hreach
    replace hfits := hfits name List.mem_cons_self
    have hnone := hfree hfits
    rw [Disk.names_of_folder hfolder, Directory.file?] at hnone
    dsimp only
    rw [Snapshot.create]
    cases hget : dir.get? name with
    | none => exact ⟨rfl, hfits, dir, hfolder, hget, _, rfl⟩
    | some node =>
      cases node with
      | folder entries =>
        refine ⟨rfl, fun other _ hother => ?_⟩
        cases hfolder.symm.trans hother
        simp [hget]
      | file number =>
        rw [hget] at hnone
        cases hnone

/-- **Moving a file** puts it in place of another, or changes nothing if a directory is there or a name
cannot be looked up. -/
theorem Disk.ends_rename (hne : name ≠ target) (hfolder : disk.folder = .ok dir)
    (hget : dir.get? name = some (.file number)) :
    Ends (Disk.mutate (.rename name target)).run disk fun result after => match result with
      | .ok _ => (∀ entries, dir.get? target ≠ some (.folder entries)) ∧
          disk.Became ((dir.erase name).put target (.file number)) disk.contents after
      | .error _ => after = disk ∧ (disk.fits name = true → disk.fits target = true →
          ∃ entries, dir.get? target = some (.folder entries)) := by
  simp only [Ends, Disk.mutate, Disk.perform, Mutation.names, ExceptT.run, ExceptT.mk, StateT.run]
  cases hreach : disk.reach [name, target] with
  | error cause =>
    refine ⟨rfl, fun hfits hfits' => ?_⟩
    cases hreach.symm.trans (Disk.reach_eq_ok.2 ⟨by simp [hfits, hfits'], hfolder⟩)
  | ok dir' =>
    obtain ⟨-, hfolder'⟩ := Disk.reach_eq_ok.1 hreach
    cases hfolder.symm.trans hfolder'
    dsimp only
    rw [Snapshot.apply, Directory.rename, hget]
    dsimp only
    rw [if_neg hne]
    cases htarget : dir.get? target with
    | none => exact ⟨by rintro _ ⟨⟩, _, rfl⟩
    | some node =>
      cases node with
      | folder entries => exact ⟨rfl, fun _ _ => ⟨entries, rfl⟩⟩
      | file other => exact ⟨by rintro _ ⟨⟩, _, rfl⟩

/-- **Taking a name away** that is no directory's leaves the other names. -/
theorem Disk.ends_unlink_file (hfolder : disk.folder = .ok dir) (hfits : disk.fits name = true)
    (hfile : ∀ entries, dir.get? name ≠ some (.folder entries)) :
    Ends (Disk.attempt (.unlink name)) disk fun _ after =>
      disk.Became (dir.erase name) disk.contents after := by
  simp only [Ends, Disk.attempt, Disk.run, Disk.mutate, Disk.perform, Mutation.names, ExceptT.run,
    ExceptT.mk, StateT.run]
  have hreach : disk.reach [name] = .ok dir := Disk.reach_eq_ok.2 ⟨by simpa using hfits, hfolder⟩
  rw [hreach]
  dsimp only
  rw [Snapshot.apply, Directory.unlink]
  cases hget : dir.get? name with
  | none =>
    have hsame : disk.Became (dir.erase name) disk.contents disk :=
      ⟨disk.issued, by rw [Directory.erase_of_free hget, ← hfolder]⟩
    exact hsame
  | some node =>
    cases node with
    | folder entries => exact absurd hget (hfile entries)
    | file number => exact ⟨_, rfl⟩

namespace Disk.Became

variable {start : Disk} {contents : Contents}

theorem ends_unlink (h : start.Became dir contents disk) (hfits : start.fits name = true)
    (hfile : ∀ entries, dir.get? name ≠ some (.folder entries)) :
    Ends (Disk.attempt (.unlink name)) disk fun _ after => start.Became (dir.erase name) contents after := by
  refine (Disk.ends_unlink_file h.folder (by rw [h.fits, hfits]) hfile).mono fun _ after hafter => ?_
  rw [h.contents_eq] at hafter
  exact h.trans hafter

theorem ends_rename (h : start.Became dir contents disk) (hne : name ≠ target)
    (hget : dir.get? name = some (.file number)) :
    Ends (Disk.mutate (.rename name target)).run disk fun result after => match result with
      | .ok _ => (∀ entries, dir.get? target ≠ some (.folder entries)) ∧
          start.Became ((dir.erase name).put target (.file number)) contents after
      | .error _ => start.Became dir contents after ∧ (start.fits name = true → start.fits target = true →
          ∃ entries, dir.get? target = some (.folder entries)) := by
  refine (Disk.ends_rename hne h.folder hget).mono ?_
  rintro (error | ⟨⟩) after hafter
  · obtain ⟨rfl, hreason⟩ := hafter
    rw [h.fits, h.fits] at hreason
    exact ⟨h, hreason⟩
  · rw [h.contents_eq] at hafter
    exact ⟨hafter.1, h.trans hafter.2⟩

end Disk.Became

/-- Octets written into a new file are all that it has, and no other file changes. -/
theorem Contents.get_written (contents : Contents) (bytes : Bytes) (number : Nat)
    (h : number ≤ contents.size) :
    ((contents.add []).2.write contents.size 0 bytes).get number =
      if number = contents.size then bytes else contents.get number := by
  have hnew : contents.size < (contents.add []).2.size := by simp [add, size]
  split
  · next hnumber =>
    rw [hnumber, get_write_self hnew, show (contents.add []).2.get contents.size = [] from
      get_add_self contents []]
    exact overwritten_length [] bytes
  · next hnumber =>
    rw [get_write_of_ne hnumber, get_add_of_lt (by omega)]

/-- A name that leads where it led has the octets that it had. -/
theorem Snapshot.Whole.file?_eq {s t : Snapshot} (h : s.Whole)
    (hnames : t.names.file? name = s.names.file? name)
    (hcontents : ∀ number < s.contents.size, t.contents.get number = s.contents.get number) :
    t.file? name = s.file? name := by
  rw [file?, hnames, file?]
  cases hfile : s.names.file? name with
  | none => rfl
  | some number => exact congrArg some (hcontents number (h name number hfile))

/-- A new file has been written under a name that was free. -/
structure Disk.Drafted (name : String) (bytes : Bytes) (dir : Directory) (start drafted : Disk) : Prop where
  fits : drafted.fits name = true
  reached : start.folder = .ok dir
  free : dir.get? name = none
  folder : drafted.folder = .ok (dir.put name (.file start.contents.size))
  contents : drafted.contents = (start.contents.add []).2.write start.contents.size 0 bytes

namespace Disk.Drafted

variable {start drafted after : Disk}

theorem kept (h : Drafted name bytes dir start drafted) (number : Nat) (hlt : number < start.contents.size) :
    drafted.contents.get number = start.contents.get number := by
  rw [h.contents, Contents.get_written _ _ _ (by omega), if_neg (by omega)]

/-- Moved over another file, the new one is all that changes. -/
theorem published (h : Drafted name bytes dir start drafted) (hwhole : start.snapshot.Whole)
    (hfile : ∀ entries, (dir.put name (.file start.contents.size)).get? target ≠ some (.folder entries))
    (hfolder : after.folder = .ok (((dir.put name (.file start.contents.size)).erase name).put target
      (.file start.contents.size)))
    (hcontents : after.contents = drafted.contents) (hne : name ≠ target) :
    start.Stands after ∧ ∀ other, after.snapshot.file? other =
      if other = target then some bytes else start.snapshot.file? other := by
  have hget : ∀ other, after.snapshot.names.get? other =
      if other = target then some (.file start.contents.size) else dir.get? other := by
    intro other
    rw [names_of_folder hfolder, Directory.get?_put, Directory.get?_erase, Directory.get?_put]
    -- The name written under was free, and it is free again once the file has been moved.
    by_cases hother : other = name
    · rw [hother, if_neg hne, if_pos rfl, if_neg hne, h.free]
    · rw [if_neg hother, if_neg hother]
  refine ⟨fun dir' hdir' => ⟨_, hfolder, fun other entries hentries => ?_⟩, fun other => ?_⟩
  · cases h.reached.symm.trans hdir'
    rw [← names_of_folder hfolder, hget, if_neg, hentries]
    rintro rfl
    refine hfile entries ?_
    rw [Directory.get?_put, if_neg hne.symm, hentries]
  · split
    · next hother =>
      rw [Snapshot.file?, Directory.file?, hget, if_pos hother]
      refine congrArg some ?_
      show after.contents.get _ = bytes
      rw [hcontents, h.contents, Contents.get_written _ _ _ (Nat.le_refl _), if_pos rfl]
    · next hother =>
      refine hwhole.file?_eq ?_ fun number hlt => ?_
      · rw [Directory.file?, hget, if_neg hother, names_of_folder h.reached, Directory.file?]
      · exact (congrArg (Contents.get · number) hcontents).trans (h.kept number hlt)

/-- Once it is taken away again, nothing has changed. -/
theorem dropped (h : Drafted name bytes dir start drafted) (hwhole : start.snapshot.Whole)
    (hpruned : Pruned (· = name) drafted after) (hgone : after.snapshot.names.file? name = none) :
    start.Stands after ∧ ∀ other, after.snapshot.file? other = start.snapshot.file? other := by
  have hnames := names_of_folder h.reached
  have hget : ∀ other, other ≠ name → drafted.snapshot.names.get? other = dir.get? other := by
    intro other hother
    rw [names_of_folder h.folder, Directory.get?_put, if_neg hother]
  constructor
  · refine Stands.trans (fun dir' hdir' => ⟨_, h.folder, fun other entries hentries => ?_⟩) hpruned.stands
    cases h.reached.symm.trans hdir'
    rw [← names_of_folder h.folder, hget other, hentries]
    rintro rfl
    rw [h.free] at hentries
    cases hentries
  · intro other
    by_cases hother : other = name
    · rw [hother, Snapshot.file?, hgone, Snapshot.file?, hnames, Directory.file?, h.free]
      rfl
    · have hdrafted : drafted.snapshot.file? other = start.snapshot.file? other := by
        refine hwhole.file?_eq ?_ h.kept
        rw [Directory.file?, hget other hother, hnames, Directory.file?]
      rcases hpruned.file? other with hsame | ⟨hsame, -⟩
      · rw [hsame, hdrafted]
      · exact absurd hsame hother

end Disk.Drafted

/-- **Storing a manifest**, where no temporary one is left, writes into a new file only: either that becomes
the manifest, or every file is as it was. -/
theorem Manifest.ends_store (manifest : Manifest) (hwhole : disk.snapshot.Whole)
    (hfree : disk.fits (FileName.temporary FileName.manifest) = true →
      disk.snapshot.names.file? (FileName.temporary FileName.manifest) = none) :
    Ends manifest.store.run disk fun result after => disk.Stands after ∧ match result with
      | .ok _ => ∃ bytes, manifest.encode = .ok bytes ∧ ∀ name, after.snapshot.file? name =
          if name = FileName.manifest then some bytes else disk.snapshot.file? name
      | .error _ => ∀ name, after.snapshot.file? name = disk.snapshot.file? name := by
  have hsame : disk.Stands disk := fun dir hdir => ⟨dir, hdir, fun _ _ h => h⟩
  have hne : FileName.temporary FileName.manifest ≠ FileName.manifest :=
    FileName.ne_of_isTemporary FileName.isTemporary_temporary_manifest FileName.not_isTemporary_manifest
  refine Ends.andThen (?encoded : Ends _ disk fun result after =>
    after = disk ∧ result = manifest.encode) ?_ ?_
  case encoded => exact .pure _ ⟨rfl, rfl⟩
  -- The files change in the last step only: before it there is a new one, which is taken away if it fails.
  · rintro bytes after ⟨rfl, hencode⟩
    refine Ends.andThen (Disk.ends_create hfree) ?_ ?_
    · rintro number created ⟨rfl, hfits, dir, hfolder, hnone, issued, rfl⟩
      refine Ends.liftThen (?written : Ends (Disk.write _ 0 bytes) _ fun _ drafted =>
        Disk.Drafted (FileName.temporary FileName.manifest) bytes dir after drafted) ?_
      case written => exact ⟨hfits, hfolder, hnone, rfl, rfl⟩
      rintro ⟨⟩ drafted hdrafted
      refine Ends.orElse (Disk.ends_rename hne hdrafted.folder (by rw [Directory.get?_put, if_pos rfl])) ?_ ?_
      · rintro ⟨⟩ last ⟨hfile, hlast⟩
        obtain ⟨hstands, hfiles⟩ := hdrafted.published hwhole hfile hlast.folder
          hlast.contents_eq hne
        exact ⟨hstands, bytes, hencode.symm, hfiles⟩
      · rintro error last ⟨rfl, -⟩
        refine (Disk.ends_unlink _).mono fun _ done hdone => ?_
        exact hdrafted.dropped hwhole hdone.1 (hdone.2 hdrafted.fits)
    · rintro error after' ⟨rfl, -⟩
      exact ⟨hsame, fun _ => rfl⟩
  · rintro error after ⟨rfl, -⟩
    exact ⟨hsame, fun _ => rfl⟩

end Storing

end LsmTree
