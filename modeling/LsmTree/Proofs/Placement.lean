import LsmTree.Proofs.Mirroring
import LsmTree.Proofs.Paths

/-!
# Working at a path

The store works in one directory, wherever a path leads to it. What an operation does there is told by what
it does on the directory alone, beside which the names that the path leaves no room for are taken.

* **`Volume.ShadowedBy`** — a disk on which operations can be followed that work at a path, with
  **`Volume.ShadowedBy.onDisk`** and **`Volume.ShadowedBy.tryOnDisk`** for one of them, whose outcomes are
  **`Alike`**.
-/

namespace LsmTree

/-! ## Outcomes -/

/-- Two outcomes give the same, if they give anything. Where the path leaves room for all names, the errors
are the same too. -/
def Alike {ε α : Type} (path : String) (result result' : Except ε α) : Prop :=
  result.toOption = result'.toOption ∧ (Path.room? path = none → result = result')

namespace Alike

variable {ε ε' α β : Type} {path : String} {result result' : Except ε α}

theorem of_eq (h : result = result') : Alike path result result' := ⟨congrArg _ h, fun _ => h⟩

theorem of_agree {result result' : Except Error α} (h : Agree Eq result result')
    (hroom : Path.room? path = none → result = result') : Alike path result result' := by
  refine ⟨?_, hroom⟩
  cases result with
  | error error =>
    cases result' with
    | error other => rfl
    | ok b => exact h.elim
  | ok a =>
    cases result' with
    | error other => exact h.elim
    | ok b => exact congrArg some h

/-- Both give the same, or both give nothing. -/
theorem elim (h : Alike path result result') : (∃ a, result = .ok a ∧ result' = .ok a) ∨
    ∃ error other, result = .error error ∧ result' = .error other := by
  obtain ⟨hsame, -⟩ := h
  cases result with
  | error error =>
    cases result' with
    | error other => exact .inr ⟨error, other, rfl, rfl⟩
    | ok b => cases hsame
  | ok a =>
    cases result' with
    | error other => cases hsame
    | ok b => exact .inl ⟨a, rfl, congrArg Except.ok (Option.some.inj hsame).symm⟩

theorem map (h : Alike path result result') (f : α → β) : Alike path (result.map f) (result'.map f) := by
  have hmap (outcome : Except ε α) : (outcome.map f).toOption = outcome.toOption.map f := by
    cases outcome <;> rfl
  refine ⟨?_, fun hroom => congrArg (Except.map f) (h.2 hroom)⟩
  rw [hmap, hmap, h.1]

theorem mapError (h : Alike path result result') (f : ε → ε') :
    Alike path (result.mapError f) (result'.mapError f) := by
  have hmap (outcome : Except ε α) : (outcome.mapError f).toOption = outcome.toOption := by
    cases outcome <;> rfl
  refine ⟨?_, fun hroom => congrArg (Except.mapError f) (h.2 hroom)⟩
  rw [hmap, hmap, h.1]

end Alike

/-! ## What the store finds at a path -/

theorem Directory.Suits.spans {room : Option Nat} {origin dir : Directory} (h : origin.Suits room dir) :
    origin.Spans dir :=
  .of_enter fun name _ henter =>
    Directory.enter_eq_ok.2 ((h.same name _).2 (Directory.enter_eq_ok.1 henter))

/-- Without a bound no name is too long. -/
theorem Snapshot.shaded_none (s : Snapshot) : s.shaded none = s := by
  have hnone : overlong none = [] :=
    List.map_eq_nil_iff.2 (List.filter_eq_nil_iff.2 fun name _ => by simp [fitsIn])
  have hall : s.names.entries.filter (fun entry => fitsIn none entry.1) = s.names.entries :=
    List.filter_eq_self.2 fun _ _ => rfl
  rw [shaded, Directory.shaded, hnone, List.append_nil, hall]

namespace Volume

variable {volume changed : Volume} {path : String} {dir dir' : Directory} {s : Snapshot} {shadow : Disk}

theorem node_of_folder (h : volume.folder path = .ok dir) : volume.node path = .ok (.folder dir.entries) := by
  obtain ⟨hlocate, hdir⟩ := folder_eq_ok.1 h
  rw [node, hlocate]
  exact Directory.nodeAt_of_folderAt hdir

/-- What the store finds where a path leads: what is there under names that are short enough, and directories
under its other names. -/
def shown (volume : Volume) (path : String) : Snapshot := (volume.snapshot path).shaded (Path.room? path)

theorem shadows_disk (h : volume.folder path = .ok dir) :
    Disk.Shadows (Path.room? path) dir (volume.disk path) (.ofSnapshot (volume.shown path)) := by
  rw [disk_of_folder h, shown, snapshot_of_folder h]
  exact ⟨rfl, rfl, rfl, rfl, .refl _ _, Disk.plain_ofSnapshot _, rfl⟩

/-- A path leads to a directory, and operations on it can be followed on a disk with room for all names. -/
def ShadowedBy (volume : Volume) (path : String) (shadow : Disk) : Prop :=
  ∃ dir, volume.folder path = .ok dir ∧
    Disk.Shadows (Path.room? path) dir (volume.disk path) shadow

namespace ShadowedBy

theorem shown_eq (h : volume.ShadowedBy path shadow) : volume.shown path = shadow.snapshot := by
  obtain ⟨dir, hdir, hshadows⟩ := h
  rw [shown, snapshot_of_folder hdir]
  rw [disk_of_folder hdir] at hshadows
  exact hshadows.shown.symm

/-- Only the directory of the disk counts. -/
theorem rebase (h : volume.ShadowedBy path shadow) : volume.ShadowedBy path (.ofSnapshot shadow.snapshot) := by
  obtain ⟨dir, hdir, hshadows⟩ := h
  exact ⟨dir, hdir, hshadows.rebase⟩

theorem of_folder (h : volume.folder path = .ok dir) :
    volume.ShadowedBy path (.ofSnapshot ⟨dir.shaded (Path.room? path), volume.contents⟩) := by
  have hshadows := shadows_disk h
  rw [shown, snapshot_of_folder h] at hshadows
  exact ⟨dir, h, hshadows⟩

/-- Where the path leaves room for all names, the disk is the directory itself. -/
theorem disk_eq (h : volume.ShadowedBy path (.ofSnapshot s)) (hroom : Path.room? path = none) :
    volume.disk path = .ofSnapshot s := by
  have hshown := h.shown_eq
  obtain ⟨dir, hdir, -⟩ := h
  rw [shown, hroom, Snapshot.shaded_none, snapshot_of_folder hdir] at hshown
  rw [disk_of_folder hdir, hroom]
  rw [show s = ⟨dir, volume.contents⟩ from hshown.symm]
  rfl

/-- **After an operation** the directory can still be reached, with what the operation left. -/
theorem update {disk : Disk} (h : volume.folder path = .ok dir)
    (hshadows : Disk.Shadows (Path.room? path) dir disk shadow) :
    (volume.update path disk).ShadowedBy path shadow := by
  obtain ⟨hfolder, hcontents⟩ := folder_update h hshadows.reachable hshadows.suits.spans
  refine ⟨disk.snapshot.names, hfolder, ?_⟩
  rw [disk_of_folder hfolder, hcontents]
  exact ⟨rfl, rfl, rfl, rfl, .refl _ _, hshadows.plain, hshadows.shown⟩

/-- **An operation at the path** does what it does on the disk. -/
theorem onDisk {α : Type} {operation : StateM Disk α} {agree : α → α → Prop}
    (h : volume.ShadowedBy path shadow)
    (hmirrors : ∀ origin, Mirrors (Disk.Shadows (Path.room? path) origin) agree operation operation) :
    agree (volume.onDisk path operation).1 (operation.run shadow).1 ∧
      (volume.onDisk path operation).2.ShadowedBy path (operation.run shadow).2 := by
  obtain ⟨dir, hdir, hshadows⟩ := h
  obtain ⟨hagree, hafter⟩ := hmirrors dir _ _ hshadows
  exact ⟨hagree, update hdir hafter⟩

/-- **An operation that may fail** does, too, and gives the same if it gives anything. -/
theorem tryOnDisk {α : Type} {operation : DiskM α} (h : volume.ShadowedBy path (.ofSnapshot s))
    (hmirrors : ∀ origin,
      Mirrors (Disk.Shadows (Path.room? path) origin) (Agree Eq) operation.run operation.run) :
    Alike path (volume.onDisk path operation.run).1 (operation.run.run (.ofSnapshot s)).1 ∧
      (volume.onDisk path operation.run).2.ShadowedBy path
        (.ofSnapshot (operation.run.run (.ofSnapshot s)).2.snapshot) := by
  obtain ⟨hagree, hafter⟩ := h.onDisk hmirrors
  refine ⟨.of_agree hagree fun hroom => ?_, hafter.rebase⟩
  show (operation.run.run (volume.disk path)).1 = _
  rw [h.disk_eq hroom]

end ShadowedBy

/-- **After an operation** the directory can still be reached, and the store finds what the operation left. -/
theorem update_shadowed {disk : Disk} {s : Snapshot} (h : volume.folder path = .ok dir)
    (hshadows : Disk.Shadows (Path.room? path) dir disk (.ofSnapshot s)) :
    (∃ dir', (volume.update path disk).folder path = .ok dir') ∧
      (volume.update path disk).shown path = s := by
  have hafter := ShadowedBy.update h hshadows
  obtain ⟨dir', hdir', -⟩ := id hafter
  exact ⟨⟨dir', hdir'⟩, hafter.shown_eq⟩

theorem load_of_folder {config : Config} (h : volume.folder config.dataDir = .ok dir) :
    Manager.load config volume = volume.onDisk config.dataDir (Manager.recover config).run := by
  rw [Manager.load, Manager.prepare, node_of_folder h]

/-- **Opening a directory** that is there. -/
theorem ShadowedBy.load {config : Config} (h : volume.ShadowedBy path (.ofSnapshot s))
    (hconfig : config.dataDir = path) :
    Alike path (Manager.load config volume).1 ((Manager.recover config).run.run (.ofSnapshot s)).1 ∧
      (Manager.load config volume).2.ShadowedBy path
        (.ofSnapshot ((Manager.recover config).run.run (.ofSnapshot s)).2.snapshot) := by
  subst hconfig
  obtain ⟨dir, hdir, -⟩ := id h
  rw [load_of_folder hdir]
  exact h.tryOnDisk fun _ => Manager.mirrors_recover config

end Volume

theorem Maintenance.run_eq {α : Type} {step : StateM Workspace α} {engine : Engine} {memory : Memory}
    {volume : Volume} {result : α} {after : Workspace}
    (h : step.run ⟨engine, memory, volume.disk engine.config.dataDir⟩ = (result, after)) :
    run step engine memory volume =
      (result, after.engine, after.memory, volume.update engine.config.dataDir after.disk) := by
  unfold StateT.run at h
  simp only [run, Volume.onDisk, StateT.run, h]

end LsmTree
