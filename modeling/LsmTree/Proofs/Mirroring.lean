import LsmTree.Proofs.LongPaths
import LsmTree.Proofs.MaintenanceSteps

/-!
# The store at long paths

Every operation of the store does at a path that leaves little room for names what it does where there is
room for all of them, once directories stand under the names that are too long. It is put together from its
parts; what is moved was created before, so its name is short enough.

* **`Manager.mirrors_recover`** — opening a directory;
* **`Maintenance.mirrors_flush`**, **`Maintenance.mirrors_compact`**, **`Maintenance.mirrors_close`** — the
  steps of maintenance.
-/

namespace LsmTree

open Disk (Shadows)

variable {room : Option Nat} {origin : Directory}

namespace Mirrors

variable {α : Type}

/-- Clean-up after a failure, which it does not undo. -/
theorem orElse {operation : DiskM α} {cleanUp : StateM Disk Unit} {same : α → α → Prop}
    (h : Mirrors (Shadows room origin) (Agree same) operation.run operation.run)
    (hclean : Mirrors (Shadows room origin) Eq cleanUp cleanUp) :
    Mirrors (Shadows room origin) (Agree same) (Disk.orElse operation cleanUp).run
      (Disk.orElse operation cleanUp).run :=
  tryCatch h fun _ _ hagree => liftThen hclean fun _ _ _ _ _ hrelated => ⟨hagree, hrelated⟩

theorem attemptBoth {first second : String} (hfirst : first ∈ FileName.all)
    (hsecond : second ∈ FileName.all) :
    Mirrors (Shadows room origin) Eq (do Disk.attempt (.unlink first); Disk.attempt (.unlink second))
      (do Disk.attempt (.unlink first); Disk.attempt (.unlink second)) :=
  bind (attempt (.inl hfirst)) fun _ _ _ => attempt (.inl hsecond)

end Mirrors

/-! ## Building segments -/

namespace Stream

theorem mirrors_pass (stream : Stream) (bytes : Bytes) :
    Mirrors (Shadows room origin) Eq (stream.pass bytes) (stream.pass bytes) :=
  .bind (.write _ _ _) fun _ _ _ => .pure rfl

theorem mirrors_flush (stream : Stream) :
    Mirrors (Shadows room origin) Eq stream.flush stream.flush := by
  unfold flush
  split
  · exact .pure rfl
  · refine .bind (mirrors_pass _ _) ?_
    rintro stream' _ rfl
    exact .pure rfl

theorem mirrors_write (stream : Stream) (bytes : Bytes) :
    Mirrors (Shadows room origin) Eq (stream.write bytes) (stream.write bytes) := by
  unfold write
  split
  · split
    · exact .pure rfl
    · exact mirrors_pass _ _
  · refine .bind (mirrors_flush stream) ?_
    rintro stream' _ rfl
    split
    · exact .pure rfl
    · exact mirrors_pass _ _

end Stream

namespace Builder

/-- The names that the files of a builder have until it is finished can be given to files. -/
def Fits (room : Option Nat) (origin : Directory) (generation : UInt64) : Prop :=
  ∀ half, fitsIn room (temporary half generation) = true ∧ origin.NoFolder (temporary half generation)

theorem mirrors_push (builder : Builder) (entry : Entry) :
    Mirrors (Shadows room origin) (fun after after' => after = after' ∧ after.generation = builder.generation)
      (builder.push entry) (builder.push entry) := by
  refine .bind (Stream.mirrors_write _ _) ?_
  rintro data _ rfl
  refine .bind (Stream.mirrors_write _ _) ?_
  rintro data' _ rfl
  refine .bind (Stream.mirrors_write _ _) ?_
  rintro index _ rfl
  refine .bind (Stream.mirrors_write _ _) ?_
  rintro index' _ rfl
  exact .pure ⟨rfl, rfl⟩

theorem mirrors_addAll (builder : Builder) (entries : List Entry) :
    Mirrors (Shadows room origin)
      (fun added added' => added = added' ∧ added.1.generation = builder.generation)
      (builder.addAll entries) (builder.addAll entries) := by
  induction entries generalizing builder with
  | nil => exact .pure ⟨rfl, rfl⟩
  | cons entry rest ih =>
    rw [addAll]
    split
    · exact .pure ⟨rfl, rfl⟩
    · refine .bind (mirrors_push builder entry) ?_
      rintro builder' _ ⟨rfl, hgeneration⟩
      rw [← hgeneration]
      exact ih builder'

theorem mirrors_start (generation : UInt64) (sync : Bool) :
    Mirrors (Shadows room origin)
      (Agree fun builder builder' => builder = builder' ∧ builder.generation = generation ∧
        Fits room origin generation)
      (Builder.start generation sync).run (Builder.start generation sync).run := by
  have hdata := FileName.temporary_segment_mem_all .data generation
  refine .andThen (.create hdata) ?_
  rintro data _ ⟨rfl, hfits⟩
  refine .andThen (.orElse (.create (FileName.temporary_segment_mem_all .index generation))
    (.attempt (.inl hdata))) ?_
  rintro index _ ⟨rfl, hfits'⟩
  refine .liftThen (Stream.mirrors_write _ _) ?_
  rintro stream _ rfl
  refine .value ⟨rfl, rfl, fun half => ?_⟩
  cases half with
  | data => exact hfits
  | index => exact hfits'

theorem mirrors_removeTemporaries (generation : UInt64) :
    Mirrors (Shadows room origin) Eq (removeTemporaries generation) (removeTemporaries generation) :=
  .attemptBoth (FileName.temporary_segment_mem_all _ _) (FileName.temporary_segment_mem_all _ _)

theorem mirrors_discard (builder : Builder) :
    Mirrors (Shadows room origin) Eq builder.discard builder.discard :=
  .bind (Stream.mirrors_flush _) fun _ _ _ => .bind (Stream.mirrors_flush _) fun _ _ _ =>
    mirrors_removeTemporaries _

theorem mirrors_publish {generation : UInt64} (h : Fits room origin generation) :
    Mirrors (Shadows room origin) (Agree Eq) (publish generation).run (publish generation).run := by
  have hrename : ∀ half, Mirrors (Shadows room origin) (Agree Eq)
      (Disk.mutate (.rename (temporary half generation) (FileName.segment half generation))).run
      (Disk.mutate (.rename (temporary half generation) (FileName.segment half generation))).run :=
    fun half => .rename (h half).1 (h half).2 (FileName.fitsIn_of_temporary (h half).1)
  exact .andThen (hrename .data) fun _ _ _ =>
    .orElse (hrename .index) (.attempt (.inl (FileName.segment_mem_all _ _)))

theorem mirrors_finish (builder : Builder) (h : Fits room origin builder.generation) :
    Mirrors (Shadows room origin) (Agree Eq) builder.finish.run builder.finish.run := by
  unfold finish
  split
  · exact .liftThen (mirrors_discard builder) fun _ _ _ => .value rfl
  · refine .liftThen (Stream.mirrors_flush _) fun _ _ _ => ?_
    refine .liftThen (Stream.mirrors_flush _) fun _ _ _ => ?_
    refine .liftThen (.fileLength _) ?_
    rintro dataLen _ rfl
    refine .liftThen (.fileLength _) ?_
    rintro indexLen _ rfl
    refine .andThen (.orElse (mirrors_publish h) (mirrors_removeTemporaries _)) fun _ _ _ => ?_
    split
    · exact .andThen .sync fun _ _ _ => .value rfl
    · exact .value rfl

end Builder

/-! ## Segments and manifests -/

namespace Segment

theorem mirrors_readFile (half : Half) (generation : UInt64) :
    Mirrors (Shadows room origin) (Agree Eq) (readFile (FileName.segment half generation)).run
      (readFile (FileName.segment half generation)).run := by
  refine .tryCatch (.read (FileName.segment_mem_all _ _)) fun error other hagree => ?_
  -- A directory is taken for a device that is missing, which still matches a name that is too long.
  rcases hagree with rfl | ⟨rfl, rfl | rfl⟩
  · split <;> exact .throw (.refl _)
  · exact .throw (.inr ⟨rfl, .inr rfl⟩)
  · exact .throw (.inr ⟨rfl, .inr rfl⟩)

theorem mirrors_load (generation : UInt64) (recorded : Option SegmentMeta) (verified : Bool) :
    Mirrors (Shadows room origin) (Agree Eq) (load generation recorded verified).run
      (load generation recorded verified).run := by
  refine .andThen (mirrors_readFile _ _) ?_
  rintro data _ rfl
  refine .andThen (mirrors_readFile _ _) ?_
  rintro index _ rfl
  split
  · exact .value rfl
  · exact .throw (.refl _)

theorem mirrors_remove (generation : UInt64) :
    Mirrors (Shadows room origin) Eq (remove generation) (remove generation) :=
  .attemptBoth (FileName.segment_mem_all _ _) (FileName.segment_mem_all _ _)

end Segment

namespace Manifest

theorem mirrors_load : Mirrors (Shadows room origin) (Agree Eq) load.run load.run := by
  have hread : Mirrors (Shadows room origin) (Agree Eq)
      (some <$> Disk.read FileName.manifest : DiskM (Option Bytes)).run
      (some <$> Disk.read FileName.manifest : DiskM (Option Bytes)).run := by
    refine .andThen (.read FileName.manifest_mem_all) ?_
    rintro bytes _ rfl
    exact .value rfl
  refine .andThen (.tryCatch hread fun error other hagree => ?_) ?_
  · split
    · split
      · exact .value rfl
      · next hother => exact absurd (hagree.missing_iff.1 rfl) hother
    · next herror =>
      split
      · exact absurd (hagree.missing_iff.2 rfl) herror
      · exact .throw hagree
  · rintro bytes _ rfl
    split
    · exact .value rfl
    · next bytes =>
      refine .andThen (.settled (decode bytes)) ?_
      rintro manifest _ rfl
      exact .value rfl

theorem mirrors_store (manifest : Manifest) :
    Mirrors (Shadows room origin) (Agree Eq) manifest.store.run manifest.store.run := by
  have htemporary := FileName.temporary_manifest_mem_all
  unfold store
  refine .andThen (.settled manifest.encode) ?_
  rintro bytes _ rfl
  refine .andThen (.create htemporary) ?_
  rintro file _ ⟨rfl, hfits, hfree⟩
  refine .liftThen (.write _ _ _) fun _ _ _ => ?_
  exact .orElse (.rename hfits hfree (FileName.fitsIn_of_temporary hfits)) (.attempt (.inl htemporary))

end Manifest

/-! ## The manager -/

namespace Manager

theorem mirrors_unlinkAll {names : List String}
    (h : ∀ name ∈ names, name ∈ FileName.all ∨ fitsIn room name = true) :
    Mirrors (Shadows room origin) Eq (unlinkAll names) (unlinkAll names) := by
  induction names with
  | nil => exact .pure rfl
  | cons name rest ih =>
    obtain ⟨hname, hrest⟩ := List.forall_mem_cons.1 h
    exact .bind (.attempt hname) fun _ _ _ => ih hrest

theorem mirrors_scan : Mirrors (Shadows room origin) (Agree Eq) scan.run scan.run := by
  refine .andThen .fileNames ?_
  rintro names _ ⟨rfl, hfits⟩
  refine .liftThen (mirrors_unlinkAll fun name hmem => ?_) fun _ _ _ => .value rfl
  exact .inr (hfits name (List.mem_filter.1 hmem).1)

theorem mirrors_loadCommitted (generation : UInt64) (recorded : Option SegmentMeta) (verified : Bool) :
    Mirrors (Shadows room origin) (Agree Eq) (loadCommitted generation recorded verified).run
      (loadCommitted generation recorded verified).run := by
  refine .tryCatch (Segment.mirrors_load _ _ _) fun error other hagree => ?_
  split
  · split
    · exact .throw (.refl _)
    · next hother => exact absurd (hagree.missing_iff.1 rfl) hother
  · next herror =>
    split
    · exact absurd (hagree.missing_iff.2 rfl) herror
    · exact .throw hagree

theorem mirrors_loadListed (verified : Bool) (listed : List SegmentMeta) :
    Mirrors (Shadows room origin) (Agree Eq) (loadListed verified listed).run
      (loadListed verified listed).run := by
  induction listed with
  | nil => exact .value rfl
  | cons segment rest ih =>
    refine .andThen (mirrors_loadCommitted _ _ _) ?_
    rintro head _ rfl
    refine .andThen ih ?_
    rintro tail _ rfl
    exact .value rfl

theorem mirrors_loadFound (verified : Bool) (found : Found) (generations : List UInt64) :
    Mirrors (Shadows room origin) (Agree Eq) (loadFound verified found generations).run
      (loadFound verified found generations).run := by
  induction generations with
  | nil => exact .value rfl
  | cons generation rest ih =>
    rw [loadFound]
    split
    · exact .throw (.refl _)
    · refine .andThen (mirrors_loadCommitted _ _ _) ?_
      rintro head _ rfl
      refine .andThen ih ?_
      rintro tail _ rfl
      exact .value rfl

theorem mirrors_removeAll (generations : List UInt64) :
    Mirrors (Shadows room origin) Eq (removeAll generations) (removeAll generations) := by
  induction generations with
  | nil => exact .pure rfl
  | cons generation rest ih => exact .bind (Segment.mirrors_remove generation) fun _ _ _ => ih

theorem mirrors_committed (verified : Bool) (found : Found) :
    Mirrors (Shadows room origin) (Agree Eq) (committed verified found).run
      (committed verified found).run := by
  refine .andThen Manifest.mirrors_load ?_
  rintro manifest _ rfl
  split
  · refine .andThen (mirrors_loadListed _ _) ?_
    rintro segments _ rfl
    exact .liftThen (mirrors_removeAll _) fun _ _ _ => .value rfl
  · refine .andThen (mirrors_loadFound _ _ _) ?_
    rintro segments _ rfl
    exact .value rfl

theorem mirrors_commit (manager : Manager) (segments : List Segment) :
    Mirrors (Shadows room origin) (Agree Eq) (manager.commit segments).run
      (manager.commit segments).run :=
  Manifest.mirrors_store _

theorem mirrors_build (sync : Bool) (generation : UInt64) (entries : List Entry) :
    Mirrors (Shadows room origin) (Agree Eq) (build sync generation entries).run
      (build sync generation entries).run := by
  refine .andThen (Builder.mirrors_start _ _) ?_
  rintro builder _ ⟨rfl, hgeneration, hfits⟩
  refine .liftThen (Builder.mirrors_addAll _ _) ?_
  rintro ⟨builder', refusal⟩ _ ⟨rfl, hsame⟩
  dsimp only
  split
  · exact .liftThen (Builder.mirrors_discard _) fun _ _ _ => .throw (.refl _)
  · refine .andThen (Builder.mirrors_finish _ ?_) ?_
    · rw [hsame, hgeneration]
      exact hfits
    · rintro info _ rfl
      split
      · exact .value rfl
      · refine .andThen (.orElse (Segment.mirrors_load _ _ _) (Segment.mirrors_remove _)) ?_
        rintro segment _ rfl
        exact .value rfl

/-- **Opening a directory** at a path that leaves little room for names. -/
theorem mirrors_recover (config : Config) :
    Mirrors (Shadows room origin) (Agree Eq) (recover config).run (recover config).run := by
  refine .andThen mirrors_scan ?_
  rintro found _ rfl
  refine .andThen (mirrors_committed _ _) ?_
  rintro ⟨segments, next⟩ _ rfl
  exact .andThen (mirrors_commit _ _) fun _ _ _ => .value rfl

end Manager

/-! ## Maintenance -/

namespace Maintenance

/-- The same engine with the same memory, on two disks of which one has room for all names. -/
structure Workspace.Shadows (room : Option Nat) (origin : Directory) (workspace shadow : Workspace) :
    Prop where
  engine : shadow.engine = workspace.engine
  memory : shadow.memory = workspace.memory
  disk : Disk.Shadows room origin workspace.disk shadow.disk

theorem mirrors_get : Mirrors (Workspace.Shadows room origin) (Agree (Workspace.Shadows room origin))
    (get : MaintenanceM Workspace).run (get : MaintenanceM Workspace).run :=
  fun _ _ h => ⟨h, h⟩

theorem mirrors_onDisk {α : Type} {same : α → α → Prop} {operation : DiskM α}
    (h : Mirrors (Disk.Shadows room origin) (Agree same) operation.run operation.run) :
    Mirrors (Workspace.Shadows room origin) (Agree same) (onDisk operation).run (onDisk operation).run :=
  fun _ _ hshadows =>
    ⟨(h _ _ hshadows.disk).1, hshadows.engine, hshadows.memory, (h _ _ hshadows.disk).2⟩

theorem mirrors_change (f : Engine → Engine) :
    Mirrors (Workspace.Shadows room origin) Eq (change f) (change f) :=
  fun _ _ h => ⟨rfl, congrArg f h.engine, h.memory, h.disk⟩

theorem mirrors_newTable : Mirrors (Workspace.Shadows room origin) Eq newTable newTable := by
  rintro ⟨engine, memory, disk⟩ ⟨_, _, disk'⟩ ⟨rfl, rfl, h⟩
  exact ⟨rfl, rfl, rfl, h⟩

theorem mirrors_adopt (segment : Segment) :
    Mirrors (Workspace.Shadows room origin) Eq (adopt segment) (adopt segment) := by
  rintro ⟨engine, memory, disk⟩ ⟨_, _, disk'⟩ ⟨rfl, rfl, h⟩
  exact ⟨rfl, rfl, rfl, h⟩

theorem mirrors_allocate : Mirrors (Workspace.Shadows room origin) Eq allocate allocate := by
  rintro ⟨engine, memory, disk⟩ ⟨_, _, disk'⟩ ⟨rfl, rfl, h⟩
  exact ⟨rfl, rfl, rfl, h⟩

theorem mirrors_freeze : Mirrors (Workspace.Shadows room origin) Eq freeze freeze := by
  rintro ⟨engine, memory, disk⟩ ⟨_, _, disk'⟩ ⟨rfl, rfl, h⟩
  rw [run_freeze, run_freeze]
  unfold Workspace.frozen
  split
  · exact ⟨rfl, rfl, rfl, h⟩
  · exact ⟨rfl, rfl, rfl, h⟩

theorem mirrors_build (entries : List Entry) :
    Mirrors (Workspace.Shadows room origin) (Agree Eq) (build entries).run (build entries).run := by
  refine .andThen mirrors_get ?_
  rintro ⟨engine, memory, disk⟩ ⟨_, _, disk'⟩ ⟨rfl, rfl, -⟩
  refine .liftThen mirrors_allocate ?_
  rintro generation _ rfl
  exact mirrors_onDisk (Manager.mirrors_build _ _ _)

theorem mirrors_commit (segments : List Segment) (built : Option Segment) :
    Mirrors (Workspace.Shadows room origin) (Agree Eq) (commit segments built).run
      (commit segments built).run := by
  refine .andThen mirrors_get ?_
  rintro ⟨engine, memory, disk⟩ ⟨_, _, disk'⟩ ⟨rfl, rfl, -⟩
  refine mirrors_onDisk (.orElse (Manager.mirrors_commit _ _) ?_)
  cases built with
  | none => exact .pure rfl
  | some segment => exact Segment.mirrors_remove _

/-- **Writing the waiting tables out**, by induction on them. -/
theorem mirrors_flushTables (tables : List Nat) :
    Mirrors (Workspace.Shadows room origin) (Agree Eq) (flushTables tables).run
      (flushTables tables).run := by
  induction tables with
  | nil => exact .value rfl
  | cons table rest ih =>
    refine .andThen mirrors_get ?_
    rintro ⟨engine, memory, disk⟩ ⟨_, _, disk'⟩ ⟨rfl, rfl, -⟩
    refine .andThen (mirrors_build _) ?_
    rintro built _ rfl
    cases built with
    | none => exact .liftThen (mirrors_change _) fun _ _ _ => ih
    | some segment =>
      refine .andThen (mirrors_commit _ _) fun _ _ _ => ?_
      refine .liftThen (mirrors_adopt segment) ?_
      rintro handle _ rfl
      exact .liftThen (mirrors_change _) fun _ _ _ => ih

theorem mirrors_flushAll :
    Mirrors (Workspace.Shadows room origin) (Agree Eq) flushAll.run flushAll.run := by
  refine .liftThen mirrors_freeze fun _ _ _ => .andThen mirrors_get ?_
  rintro ⟨engine, memory, disk⟩ ⟨_, _, disk'⟩ ⟨rfl, rfl, -⟩
  exact mirrors_flushTables _

theorem mirrors_requireOpen :
    Mirrors (Workspace.Shadows room origin) (Agree Eq) requireOpen.run requireOpen.run := by
  refine .andThen mirrors_get ?_
  rintro ⟨engine, memory, disk⟩ ⟨_, _, disk'⟩ ⟨rfl, rfl, -⟩
  split
  · exact .throw (.refl _)
  · exact .value rfl

/-- **A flush.** -/
theorem mirrors_flush : Mirrors (Workspace.Shadows room origin) (Agree Eq) flush.run flush.run :=
  .andThen mirrors_requireOpen fun _ _ _ => mirrors_flushAll

/-- **A closing.** -/
theorem mirrors_close : Mirrors (Workspace.Shadows room origin) (Agree Eq) close.run close.run := by
  refine .andThen mirrors_get ?_
  rintro ⟨engine, memory, disk⟩ ⟨_, _, disk'⟩ ⟨rfl, rfl, -⟩
  split
  · exact .value rfl
  · refine .andThen mirrors_flushAll fun _ _ _ => .liftThen mirrors_newTable ?_
    rintro active _ rfl
    exact .lift (mirrors_change _)

theorem mirrors_retire (inUse : Handle → Bool) (replaced : List Handle) :
    Mirrors (Disk.Shadows room origin) Eq (retire inUse replaced) (retire inUse replaced) := by
  have hremove : ∀ handles : List Handle, Mirrors (Disk.Shadows room origin) Eq
      (handles.forM fun handle => Segment.remove handle.segment.generation)
      (handles.forM fun handle => Segment.remove handle.segment.generation) := by
    intro handles
    induction handles with
    | nil => exact .pure rfl
    | cons handle rest ih => exact .bind (Segment.mirrors_remove _) fun _ _ _ => ih
  exact .bind (hremove _) fun _ _ _ => .pure rfl

theorem mirrors_adoptAll (segments : List Segment) :
    Mirrors (Workspace.Shadows room origin) (Agree Eq)
      (segments.mapM fun segment => (adopt segment : MaintenanceM Handle)).run
      (segments.mapM fun segment => (adopt segment : MaintenanceM Handle)).run := by
  induction segments with
  | nil =>
    rw [List.mapM_nil]
    exact .value rfl
  | cons segment rest ih =>
    rw [List.mapM_cons]
    refine .liftThen (mirrors_adopt segment) ?_
    rintro handle _ rfl
    refine .andThen ih ?_
    rintro handles _ rfl
    exact .value rfl

/-- **A compaction.** -/
theorem mirrors_compact (inUse : Handle → Bool) :
    Mirrors (Workspace.Shadows room origin) (Agree Eq) (compact inUse).run (compact inUse).run := by
  refine .andThen mirrors_requireOpen fun _ _ _ => .liftThen mirrors_freeze fun _ _ _ => ?_
  refine .andThen mirrors_get ?_
  rintro ⟨engine, memory, disk⟩ ⟨_, _, disk'⟩ ⟨rfl, rfl, -⟩
  dsimp only
  split
  · exact .value rfl
  · refine .andThen (mirrors_build _) ?_
    rintro built _ rfl
    refine .andThen (mirrors_commit _ _) fun _ _ _ => .andThen (mirrors_adoptAll _) ?_
    rintro handles _ rfl
    exact .liftThen (mirrors_change _) fun _ _ _ => mirrors_onDisk (.lift (mirrors_retire _ _))

end Maintenance

end LsmTree
