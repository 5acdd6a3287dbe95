import LsmTree.Maintenance
import LsmTree.Proofs.Holding

/-!
# Runs on a directory and what a crash leaves of them

An operation on a directory is judged by two conditions: one on its result and the state after it, and
one on every directory that a crash part of the way could leave, which is what a first part of its
mutations makes of the directory before it.

* **`Runs`** — an operation that ends in a state with the first condition and passes only through
  directories with the second;
* **`Runs.bind`**, **`Runs.attempt`**, **`Runs.orElse`** — the condition of an operation from those of
  its parts;
* **`Runs.create`**, **`Runs.write`**, **`Runs.rename`**, **`Runs.unlink`**, **`Runs.read`** — the
  conditions of the operations that touch a directory, seen through what its names hold.
-/

namespace LsmTree

namespace Disk

/-- The directory with the contents of its files. -/
def snapshot (disk : Disk) : Snapshot :=
  ⟨disk.folder.toOption.getD .empty, disk.contents⟩

/-- The directory can be reached, and its path leaves room for every name. -/
structure Plain (disk : Disk) : Prop where
  reachable : ∃ dir, disk.folder = .ok dir
  roomy : disk.room = none
  opens : disk.barred = none
  syncs : disk.unsynced = none

theorem plain_ofSnapshot (snapshot : Snapshot) : Plain (ofSnapshot snapshot) :=
  ⟨⟨_, rfl⟩, rfl, rfl, rfl⟩

@[simp] theorem snapshot_ofSnapshot (s : Snapshot) : (ofSnapshot s).snapshot = s := rfl

theorem Plain.folder_eq {disk : Disk} (h : disk.Plain) : disk.folder = .ok disk.snapshot.names := by
  obtain ⟨dir, hdir⟩ := h.reachable
  rw [snapshot, hdir]
  rfl

theorem Plain.reach_eq {disk : Disk} (h : disk.Plain) (names : List String) :
    disk.reach names = .ok disk.snapshot.names := by
  have hfits : names.all disk.fits = true := by
    rw [List.all_eq_true]
    intro name _
    simp [fits, h.roomy]
  rw [reach, if_pos hfits, h.folder_eq]

theorem Plain.fits {disk : Disk} (h : disk.Plain) (name : String) : disk.fits name = true := by
  rw [Disk.fits, h.roomy]
  rfl

theorem Plain.syncFault?_eq {disk : Disk} (h : disk.Plain) : disk.syncFault? = none := by
  rw [syncFault?, h.opens, h.syncs]
  rfl

theorem run_enter {disk : Disk} {dir : Directory} (hfolder : disk.folder = .ok dir)
    (hopens : disk.barred = none) : enter.run.run disk = (.ok dir, disk) := by
  simp [enter, ExceptT.run, ExceptT.mk, StateT.run, hfolder, hopens]

/-- Syncing a directory that can be reached changes nothing, and fails only for the reason it has. -/
theorem run_sync {disk : Disk} {dir : Directory} (hfolder : disk.folder = .ok dir) :
    sync.run.run disk = (match disk.syncFault? with
      | some cause => (.error (.io cause), disk)
      | none => (.ok (), disk)) := by
  obtain ⟨folder, contents, room, barred, unsynced, issued⟩ := disk
  obtain rfl : folder = .ok dir := hfolder
  cases barred with
  | some cause => rfl
  | none => cases unsynced <;> rfl

end Disk

/-- What reading a file gives, by what its name holds. -/
def Holding.octets : Holding → Except Error Bytes
  | nothing => .error (.io .noEntry)
  | folder => .error (.io .isDirectory)
  | file bytes => .ok bytes

/-- States that work on a directory. -/
class OnDisk (σ : Type) where
  disk : σ → Disk

instance : OnDisk Disk := ⟨id⟩

instance : OnDisk Maintenance.Workspace := ⟨Maintenance.Workspace.disk⟩

open OnDisk (disk)

variable {σ α β : Type} [OnDisk σ]

/-- Run in a state, the operation ends with `post`, and every first part of the mutations it issues
makes a directory with `crash`. -/
def Runs (operation : StateM σ α) (state : σ) (post : α → σ → Prop) (crash : Snapshot → Prop) : Prop :=
  (disk state).Plain → ∃ trace : List Mutation,
    (disk (operation.run state).2).Plain ∧
    (disk (operation.run state).2).issued = (disk state).issued ++ trace ∧
    (disk state).snapshot.replay trace = (disk (operation.run state).2).snapshot ∧
    (∀ first, first <+: trace → crash ((disk state).snapshot.replay first)) ∧
    post (operation.run state).1 (operation.run state).2

namespace Runs

variable {operation : StateM σ α} {state : σ} {post post' : α → σ → Prop} {crash crash' : Snapshot → Prop}

theorem pure (a : α) (hpost : post a state) (hcrash : crash (disk state).snapshot) :
    Runs (pure a) state post crash := by
  intro hplain
  refine ⟨[], hplain, (List.append_nil _).symm, rfl, fun first hfirst => ?_, hpost⟩
  rw [List.prefix_nil.1 hfirst]
  exact hcrash

/-- Conditions may be weakened; the directory at the end is one that a crash could leave. -/
theorem mono (h : Runs operation state post crash)
    (hpost : ∀ a next, post a next → crash (disk next).snapshot → post' a next)
    (hcrash : ∀ s, crash s → crash' s) : Runs operation state post' crash' := by
  intro hplain
  obtain ⟨trace, hplain', hissued, hreplay, hfirst, hend⟩ := h hplain
  refine ⟨trace, hplain', hissued, hreplay, fun first hf => hcrash _ (hfirst first hf), ?_⟩
  refine hpost _ _ hend ?_
  rw [← hreplay]
  exact hfirst trace (List.prefix_refl _)

/-- A weaker crash condition alone. -/
theorem monoCrash (h : Runs operation state post crash) (hcrash : ∀ s, crash s → crash' s) :
    Runs operation state post crash' :=
  h.mono (fun _ _ hpost _ => hpost) hcrash

/-- The directory at the end is one that a crash could leave. -/
theorem withCrash (h : Runs operation state post crash) :
    Runs operation state (fun a next => post a next ∧ crash (disk next).snapshot) crash :=
  h.mono (fun _ _ hpost hcrash => ⟨hpost, hcrash⟩) fun _ hcrash => hcrash

theorem withRun (h : Runs operation state post crash) :
    Runs operation state (fun a next => post a next ∧ operation.run state = (a, next)) crash := by
  intro hplain
  obtain ⟨trace, hplain', hissued, hreplay, hfirst, hend⟩ := h hplain
  exact ⟨trace, hplain', hissued, hreplay, hfirst, hend, rfl⟩

theorem apply (h : Runs operation state post crash) (hplain : (disk state).Plain) :
    post (operation.run state).1 (operation.run state).2 ∧
      crash (disk (operation.run state).2).snapshot := by
  obtain ⟨-, -, -, -, -, hpost, hcrash⟩ := h.withCrash hplain
  exact ⟨hpost, hcrash⟩

theorem plain (h : Runs operation state post crash) (hplain : (disk state).Plain) :
    (disk (operation.run state).2).Plain := by
  obtain ⟨-, hplain', -⟩ := h hplain
  exact hplain'

/-- The same, where the end of the run is known. -/
theorem ends (h : Runs operation state post crash) (hplain : (disk state).Plain) {a : α} {after : σ}
    (hrun : operation.run state = (a, after)) :
    (disk after).Plain ∧ post a after ∧ crash (disk after).snapshot := by
  have hend := h.apply hplain
  have hafter := h.plain hplain
  rw [hrun] at hend hafter
  exact ⟨hafter, hend⟩

/-- What holds of every directory that a first part of the mutations leaves, if there were none before. -/
theorem crashes (h : Runs operation state post crash) (hplain : (disk state).Plain)
    (hnone : (disk state).issued = []) {first : List Mutation}
    (hfirst : first <+: (disk (operation.run state).2).issued) :
    crash ((disk state).snapshot.replay first) := by
  obtain ⟨trace, -, hissued, -, hcrash, -⟩ := h hplain
  rw [hissued, hnone] at hfirst
  exact hcrash first hfirst

/-- **One operation after another** passes through the directories of both. -/
theorem bind {next : α → StateM σ β} {post : β → σ → Prop} {middle : α → σ → Prop}
    (h : Runs operation state middle crash)
    (hnext : ∀ a after, operation.run state = (a, after) → middle a after →
      Runs (next a) after post crash) :
    Runs (operation >>= next) state post crash := by
  intro hplain
  obtain ⟨trace, hplain', hissued, hreplay, hfirst, hmiddle⟩ := h hplain
  obtain ⟨trace', hplain'', hissued', hreplay', hfirst', hpost⟩ := hnext _ _ rfl hmiddle hplain'
  refine ⟨trace ++ trace', hplain'', ?_, ?_, ?_, hpost⟩
  · rw [← List.append_assoc, ← hissued]
    exact hissued'
  · rw [Snapshot.replay, List.foldl_append]
    exact (congrArg (fun s => Snapshot.replay s trace') hreplay).trans hreplay'
  · intro first hf
    obtain ⟨rest, hrest⟩ := hf
    rcases List.append_eq_append_iff.1 hrest with ⟨more, htrace, -⟩ | ⟨more, rfl, hmore⟩
    · exact hfirst first ⟨more, htrace.symm⟩
    · have hsplit : (disk state).snapshot.replay (trace ++ more) =
          ((disk state).snapshot.replay trace).replay more := by
        simp [Snapshot.replay, List.foldl_append]
      rw [hsplit, hreplay]
      exact hfirst' more ⟨rest, hmore.symm⟩

/-- What an operation does is all that counts, and what it starts from as far as the directory goes. -/
theorem of_run_eq (operation' : StateM σ α) (state' : σ) (hdisk : disk state' = disk state)
    (heq : operation.run state = operation'.run state') (h : Runs operation' state' post crash) :
    Runs operation state post crash := by
  unfold Runs at h ⊢
  rw [heq, ← hdisk]
  exact h

/-- An operation that leaves the directory alone passes through it as it is. -/
theorem of_disk_eq {a : α} {after : σ} (hrun : operation.run state = (a, after))
    (hdisk : disk after = disk state) (hpost : post a after) (hcrash : crash (disk state).snapshot) :
    Runs operation state post crash := by
  intro hplain
  rw [hrun]
  refine ⟨[], hdisk ▸ hplain, by rw [hdisk, List.append_nil], by rw [hdisk]; rfl,
    fun first hfirst => ?_, hpost⟩
  rw [List.prefix_nil.1 hfirst]
  exact hcrash

theorem map {f : α → β} {post : β → σ → Prop}
    (h : Runs operation state (fun a next => post (f a) next) crash) :
    Runs (f <$> operation) state post crash := h

/-! ## Operations that may fail -/

section Failing

variable {operation : ExceptT Error (StateM σ) α} {middle : Except Error α → σ → Prop}

theorem liftThen {operation : StateM σ α} {middle : α → σ → Prop}
    {next : α → ExceptT Error (StateM σ) β} {post : Except Error β → σ → Prop}
    (h : Runs operation state middle crash)
    (hnext : ∀ a after, operation.run state = (a, after) → middle a after →
      Runs (next a).run after post crash) :
    Runs ((liftM operation : ExceptT Error (StateM σ) α) >>= next).run state post crash :=
  of_run_eq (operation >>= fun a => (next a).run) state rfl rfl (Runs.bind h hnext)

/-- **One operation after another**, the second one only if the first one does not fail. -/
theorem andThen {next : α → ExceptT Error (StateM σ) β} {post : Except Error β → σ → Prop}
    (h : Runs operation.run state middle crash)
    (hok : ∀ a after, operation.run.run state = (.ok a, after) → middle (.ok a) after →
      Runs (next a).run after post crash)
    (herror : ∀ error after, middle (.error error) after → post (.error error) after) :
    Runs (operation >>= next).run state post crash := by
  show Runs (operation.run >>= ExceptT.bindCont next) state post crash
  refine Runs.bind h.withCrash ?_
  rintro (error | a) after heq ⟨hmiddle, hcrash⟩
  · exact Runs.pure _ (herror error after hmiddle) hcrash
  · exact hok a after heq hmiddle

theorem tryCatch {handler : Error → ExceptT Error (StateM σ) α} {post : Except Error α → σ → Prop}
    (h : Runs operation.run state middle crash)
    (hok : ∀ a after, middle (.ok a) after → post (.ok a) after)
    (herror : ∀ error after, middle (.error error) after → Runs (handler error).run after post crash) :
    Runs (tryCatch operation handler : ExceptT Error (StateM σ) α).run state post crash := by
  rw [ExceptT.run_tryCatch]
  refine Runs.bind h.withCrash ?_
  rintro (error | a) after - ⟨hmiddle, hcrash⟩
  · exact herror error after hmiddle
  · exact Runs.pure _ (hok a after hmiddle) hcrash

end Failing

/-- An operation with clean-up after failure, which it does not undo. -/
theorem orElse {operation : DiskM α} {cleanUp : StateM Disk Unit} {start : Disk}
    {middle post : Except Error α → Disk → Prop} (h : Runs operation.run start middle crash)
    (hok : ∀ a after, middle (.ok a) after → post (.ok a) after)
    (herror : ∀ error after, middle (.error error) after →
      Runs cleanUp after (fun _ done => post (.error error) done) crash) :
    Runs (Disk.orElse operation cleanUp).run start post crash := by
  refine tryCatch h hok fun error after hmiddle => ?_
  refine of_run_eq (cleanUp >>= fun _ => Pure.pure (.error error)) after rfl rfl ?_
  refine bind (herror error after hmiddle).withCrash ?_
  rintro ⟨⟩ done - ⟨hpost, hcrash⟩
  exact Runs.pure _ hpost hcrash

theorem onDisk {operation : DiskM α} {workspace : Maintenance.Workspace}
    {post : Except Error α → Maintenance.Workspace → Prop}
    (h : Runs operation.run workspace.disk (fun a disk => post a { workspace with disk }) crash) :
    Runs (Maintenance.onDisk operation).run workspace post crash := h

/-! ## Operations on names and files -/

section Primitives

open Snapshot (Within)

variable {start : Disk} {name target : String} {bytes : Bytes} {number : Nat}

/-- A mutation that is performed passes through the directories before and after it. -/
theorem perform {mutation : Mutation} {change : Snapshot → Except OsError (α × Snapshot)} (value : α)
    (changed : Snapshot) {post : Except Error α → Disk → Prop}
    (hchange : change start.snapshot = .ok (value, changed))
    (happly : start.snapshot.apply mutation = .ok changed)
    (hpost : ∀ after : Disk, after.snapshot = changed → post (.ok value) after)
    (hbefore : crash start.snapshot) (hafter : crash changed) :
    Runs (Disk.perform mutation change).run start post crash := by
  intro (hplain : start.Plain)
  let after : Disk := { start with
    folder := .ok changed.names
    contents := changed.contents
    issued := start.issued ++ [mutation] }
  have hrun : (Disk.perform mutation change).run.run start = (.ok value, after) := by
    simp only [Disk.perform, ExceptT.run, ExceptT.mk, StateT.run, hplain.reach_eq]
    rw [show (⟨start.snapshot.names, start.contents⟩ : Snapshot) = start.snapshot from rfl, hchange]
  have hone : start.snapshot.replay [mutation] = changed := by
    simp [Snapshot.replay, happly]
  rw [hrun]
  refine ⟨[mutation], ⟨⟨_, rfl⟩, hplain.roomy, hplain.opens, hplain.syncs⟩, rfl, hone, ?_, hpost after rfl⟩
  intro first hfirst
  rcases List.prefix_cons_iff.1 hfirst with rfl | ⟨rest, rfl, hrest⟩
  · exact hbefore
  · rw [List.prefix_nil.1 hrest]
    exact hone ▸ hafter

theorem perform_refused {mutation : Mutation} {change : Snapshot → Except OsError (α × Snapshot)}
    (cause : OsError) {post : Except Error α → Disk → Prop}
    (hchange : change start.snapshot = .error cause) (hpost : post (.error (.io cause)) start)
    (hcrash : crash start.snapshot) :
    Runs (Disk.perform mutation change).run start post crash := by
  intro (hplain : start.Plain)
  have hrun : (Disk.perform mutation change).run.run start = (.error (.io cause), start) := by
    simp only [Disk.perform, ExceptT.run, ExceptT.mk, StateT.run, hplain.reach_eq]
    rw [show (⟨start.snapshot.names, start.contents⟩ : Snapshot) = start.snapshot from rfl, hchange]
  rw [hrun]
  refine ⟨[], hplain, (List.append_nil _).symm, rfl, fun first hfirst => ?_, hpost⟩
  rw [List.prefix_nil.1 hfirst]
  exact hcrash

/-- **Creating a file** leaves it empty and open, unless a directory is in its place. -/
theorem create (hu : start.snapshot.Unshared) :
    Runs (Disk.create name).run start
      (fun result after => match result with
        | .ok number =>
          start.snapshot.holding name ≠ .folder ∧
          after.snapshot.names.get? name = some (.file number) ∧
          (∀ other, other ≠ name →
            after.snapshot.names.get? other = start.snapshot.names.get? other) ∧
          ∀ other, after.snapshot.holding other =
            if other = name then .file [] else start.snapshot.holding other
        | .error _ => after = start ∧ start.snapshot.holding name = .folder)
      (Within [name] start.snapshot) := by
  by_cases hfolder : start.snapshot.holding name = .folder
  · exact perform_refused .isDirectory (Snapshot.create_of_folder hfolder) ⟨rfl, hfolder⟩ (.refl _ hu)
  · obtain ⟨number, t, hcreate, hunshared, hname, hothers, hholding⟩ :=
      Snapshot.create_of_free hu hfolder
    refine perform number t hcreate (by simp [Snapshot.apply, hcreate, Except.map]) ?_ (.refl _ hu)
      ⟨hunshared, fun other hother => ?_⟩
    · rintro after rfl
      exact ⟨hfolder, hname, hothers, hholding⟩
    · rw [hholding, if_neg (by simpa using hother)]

/-- **Writing into an open file** changes the octets of its name. -/
theorem write (hu : start.snapshot.Unshared)
    (hname : start.snapshot.names.get? name = some (.file number)) (offset : Nat) (bytes : Bytes) :
    Runs (Disk.write number offset bytes) start
      (fun _ after => after.snapshot.names = start.snapshot.names ∧
        ∀ other, after.snapshot.holding other =
          if other = name then
            .file (Contents.overwritten (start.snapshot.contents.get number) offset bytes)
          else start.snapshot.holding other)
      (Within [name] start.snapshot) := by
  obtain ⟨hunshared, hholding⟩ := Snapshot.write_holding hu hname offset bytes
  intro (hplain : start.Plain)
  have hafter : Disk.Plain (OnDisk.disk ((Disk.write number offset bytes).run start).2) :=
    ⟨hplain.reachable, hplain.roomy, hplain.opens, hplain.syncs⟩
  refine ⟨[.write number offset bytes], hafter, rfl, rfl, ?_, rfl, hholding⟩
  intro first hfirst
  rcases List.prefix_cons_iff.1 hfirst with rfl | ⟨rest, rfl, hrest⟩
  · exact .refl _ hu
  · rw [List.prefix_nil.1 hrest]
    refine ⟨hunshared, fun other hother => ?_⟩
    exact (hholding other).trans (if_neg (by simpa using hother))

/-- **Renaming a file** moves it, unless a directory is in its place. -/
theorem rename (hu : start.snapshot.Unshared) (hsource : start.snapshot.holding name = .file bytes)
    (hne : name ≠ target) :
    Runs (Disk.mutate (.rename name target)).run start
      (fun result after => match result with
        | .ok _ =>
          start.snapshot.holding target ≠ .folder ∧
          ∀ other, after.snapshot.holding other =
            if other = target then .file bytes
            else if other = name then .nothing else start.snapshot.holding other
        | .error _ => after = start ∧ start.snapshot.holding target = .folder)
      (fun t => t = start.snapshot ∨ t.Unshared ∧ ∀ other, t.holding other =
        if other = target then .file bytes
        else if other = name then .nothing else start.snapshot.holding other) := by
  by_cases hfolder : start.snapshot.holding target = .folder
  · have hrefused := Snapshot.rename_of_folder hsource hfolder
    refine perform_refused .isDirectory ?_ ⟨rfl, hfolder⟩ (.inl rfl)
    simp [Snapshot.apply, hrefused, Except.map]
  · obtain ⟨names, hrename, hunshared, hholding⟩ := Snapshot.rename_of_file hu hsource hfolder hne
    refine perform () { start.snapshot with names } ?_ ?_ ?_ (.inl rfl)
      (.inr ⟨hunshared, hholding⟩)
    · simp [Snapshot.apply, hrename, Except.map]
    · simp [Snapshot.apply, hrename, Except.map]
    · rintro after hafter
      refine ⟨hfolder, fun other => ?_⟩
      rw [hafter]
      exact hholding other

/-- Renaming a file concerns its old name and its new one only. -/
theorem renameWithin (hu : start.snapshot.Unshared)
    (hsource : start.snapshot.holding name = .file bytes) (hne : name ≠ target) :
    Runs (Disk.mutate (.rename name target)).run start
      (fun result after => match result with
        | .ok _ =>
          start.snapshot.holding target ≠ .folder ∧
          ∀ other, after.snapshot.holding other =
            if other = target then .file bytes
            else if other = name then .nothing else start.snapshot.holding other
        | .error _ => after = start ∧ start.snapshot.holding target = .folder)
      (Within [name, target] start.snapshot) := by
  refine (rename hu hsource hne).monoCrash ?_
  rintro t (rfl | ⟨ht, hholding⟩)
  · exact .refl _ hu
  · refine ⟨ht, fun other hother => ?_⟩
    obtain ⟨hname, htarget⟩ : other ≠ name ∧ other ≠ target := by simpa using hother
    rw [hholding, if_neg htarget, if_neg hname]

/-- **Unlinking** takes a file away and leaves everything else. -/
theorem unlink (hu : start.snapshot.Unshared) :
    Runs (Disk.attempt (.unlink name)) start
      (fun _ after => ∀ other, after.snapshot.holding other =
        if other = name then (start.snapshot.holding name).withoutFile
        else start.snapshot.holding other)
      (Within [name] start.snapshot) := by
  refine of_run_eq ((fun _ => ()) <$> (Disk.mutate (.unlink name)).run) start rfl rfl ?_
  refine Runs.map ?_
  cases hholding : start.snapshot.holding name with
  | file bytes =>
    obtain ⟨names, hunlink, hunshared, hafter⟩ := Snapshot.unlink_of_file hu hholding
    refine perform () { start.snapshot with names } ?_ ?_ ?_ (.refl _ hu)
      ⟨hunshared, fun other hother => ?_⟩
    · simp [Snapshot.apply, hunlink, Except.map]
    · simp [Snapshot.apply, hunlink, Except.map]
    · rintro after hafter' other
      rw [hafter']
      exact hafter other
    · rw [hafter, if_neg (by simpa using hother)]
  | _ =>
    have hnot : ∀ bytes, start.snapshot.holding name ≠ .file bytes := by simp [hholding]
    obtain ⟨cause, hunlink⟩ := Snapshot.unlink_of_not_file hnot
    refine perform_refused cause ?_ ?_ (.refl _ hu)
    · simp [Snapshot.apply, hunlink, Except.map]
    · intro other
      by_cases hother : other = name
      · simp [hother, hholding, Holding.withoutFile]
      · simp [hother]

/-- **Reading a file** tells its octets and changes nothing. -/
theorem read :
    Runs (Disk.read name).run start
      (fun result after => after = start ∧ result = (start.snapshot.holding name).octets)
      (fun t => t = start.snapshot) := by
  intro (hplain : start.Plain)
  have hrun : (Disk.read name).run.run start = ((start.snapshot.holding name).octets, start) := by
    simp only [Disk.read, ExceptT.run, ExceptT.mk, StateT.run, hplain.reach_eq, Snapshot.holding]
    cases start.snapshot.names.get? name with
    | none => rfl
    | some node => cases node <;> rfl
  rw [hrun]
  refine ⟨[], hplain, (List.append_nil _).symm, rfl, fun first hfirst => ?_, rfl, rfl⟩
  rw [List.prefix_nil.1 hfirst]
  rfl

/-- **Opening the directory itself** succeeds and changes nothing. -/
theorem enter :
    Runs Disk.enter.run start
      (fun result after => after = start ∧ result = .ok start.snapshot.names)
      (fun t => t = start.snapshot) := by
  intro (hplain : start.Plain)
  rw [Disk.run_enter hplain.folder_eq hplain.opens]
  refine ⟨[], hplain, (List.append_nil _).symm, rfl, fun first hfirst => ?_, rfl, rfl⟩
  rw [List.prefix_nil.1 hfirst]
  rfl

/-- **Syncing the directory** succeeds and changes nothing. -/
theorem sync :
    Runs Disk.sync.run start (fun result after => after = start ∧ result = .ok ())
      (fun t => t = start.snapshot) := by
  intro (hplain : start.Plain)
  rw [Disk.run_sync hplain.folder_eq, hplain.syncFault?_eq]
  refine ⟨[], hplain, (List.append_nil _).symm, rfl, fun first hfirst => ?_, rfl, rfl⟩
  rw [List.prefix_nil.1 hfirst]
  rfl

/-- **Listing the files** tells the names that hold files and changes nothing. -/
theorem fileNames :
    Runs Disk.fileNames.run start
      (fun result after => after = start ∧ result = .ok start.snapshot.names.fileNames)
      (fun t => t = start.snapshot) := by
  intro (hplain : start.Plain)
  have hfits : start.snapshot.names.fileNames.filter start.fits = start.snapshot.names.fileNames := by
    rw [List.filter_eq_self]
    intro name _
    simp [Disk.fits, hplain.roomy]
  have hentered : Runs Disk.fileNames.run start
      (fun result after => after = start ∧
        result = .ok (start.snapshot.names.fileNames.filter start.fits))
      (fun t => t = start.snapshot) := by
    refine Runs.andThen enter ?_ ?_
    · rintro dir after - ⟨rfl, hdir⟩
      cases hdir
      refine Runs.of_run_eq (Pure.pure (.ok (after.snapshot.names.fileNames.filter after.fits))) after
        rfl rfl ?_
      exact Runs.pure _ ⟨rfl, rfl⟩ rfl
    · rintro error after ⟨-, hdir⟩
      cases hdir
  rw [hfits] at hentered
  exact hentered hplain

end Primitives

end Runs
end LsmTree
