import LsmTree.Proofs.MaintenanceSteps
import LsmTree.Proofs.Recovery

/-!
# Manifests one after the other

An operation passes through many directories, and a crash can make any of them the one that is opened
next. Their manifests only go forward: the next generation that is recorded never falls, and a segment that
was not listed before is of a generation that had not been passed yet.

* **`Renews`** — the manifest of a directory against that of an earlier one;
* **`Snapshot.through`**, **`Snapshot.Leads`** — the directories that mutations lead through, each with a
  manifest that renews the one before;
* **`Advances`** — an operation all of whose mutations do so, composed as its parts are;
* **`Maintenance.advances_flush`**, **`Maintenance.advances_compact`**, **`Maintenance.advances_close`**,
  **`Manager.advances_recover`** — the operations of an engine.
-/

namespace LsmTree

open Snapshot (Within)
open OnDisk (disk)

/-! ## The manifest of a directory

A directory that can be recovered is committed to segments and to a next generation, which are those of its
manifest, or to nothing as long as it holds only temporary files. So what its manifest says is read off from
what is known of it. -/

namespace Snapshot

/-- The manifest that a directory holds. One that cannot be read counts as none. -/
def manifest? (s : Snapshot) : Option Manifest :=
  match s.holding FileName.manifest with
  | .file bytes => (Manifest.decode bytes).toOption
  | _ => none

/-- The next generation that the manifest records. -/
def next (s : Snapshot) : UInt64 := s.manifest?.elim 0 Manifest.next

/-- The segments that the manifest lists, oldest first. -/
def listed (s : Snapshot) : List SegmentMeta := s.manifest?.elim [] Manifest.segments

variable {s t : Snapshot}

theorem manifest?_congr (h : ∀ bytes, t.holding FileName.manifest = .file bytes ↔
    s.holding FileName.manifest = .file bytes) : t.manifest? = s.manifest? := by
  unfold manifest?
  cases hs : s.holding FileName.manifest with
  | file bytes => rw [(h bytes).2 hs]
  | _ =>
    -- A directory in its place counts as little as nothing at all.
    cases ht : t.holding FileName.manifest with
    | file bytes =>
      rw [(h bytes).1 ht] at hs
      cases hs
    | _ => rfl

theorem manifest?_of_written {manifest : Manifest} {bytes : Bytes} (hencode : manifest.encode = .ok bytes)
    (hversion : manifest.version = Manifest.currentVersion)
    (hwritten : s.holding FileName.manifest = .file bytes) : s.manifest? = some manifest := by
  unfold manifest?
  rw [hwritten]
  show (Manifest.decode bytes).toOption = some manifest
  rw [Manifest.decode_encode hencode hversion]
  rfl

end Snapshot

/-- A later directory has a manifest that goes on from that of an earlier one: the next generation has not
fallen, and what is listed was listed before or is not older than the next generation of then. -/
structure Renews (s t : Snapshot) : Prop where
  next_le : s.next ≤ t.next
  listed : ∀ info ∈ t.listed, info ∈ s.listed ∨ s.next ≤ info.generation

section Renews

variable {s t u : Snapshot} {recorded next : UInt64} {segments segments' : List Segment}

theorem Renews.refl (s : Snapshot) : Renews s s :=
  ⟨UInt64.le_refl _, fun _ hmem => .inl hmem⟩

theorem Renews.trans (h : Renews s t) (h' : Renews t u) : Renews s u := by
  refine ⟨UInt64.le_trans h.next_le h'.next_le, fun info hmem => ?_⟩
  rcases h'.listed info hmem with hmem | hnew
  · exact h.listed info hmem
  · exact .inr (UInt64.le_trans h.next_le hnew)

theorem Renews.of_eq (h : t.manifest? = s.manifest?) : Renews s t := by
  unfold Snapshot.manifest? at h
  refine ⟨?_, fun info hmem => .inl ?_⟩
  · unfold Snapshot.next Snapshot.manifest?
    rw [h]
    exact UInt64.le_refl _
  · unfold Snapshot.listed Snapshot.manifest? at hmem ⊢
    rwa [h] at hmem

/-- What a directory is committed to is what its manifest says. -/
theorem Recoverable.manifest (h : Recoverable recorded segments s) :
    s.next = recorded ∧ s.listed = segments.reverse.map Segment.info := by
  rcases h with h | ⟨rfl, rfl, -, htemporary⟩
  · obtain ⟨bytes, hencode, hwritten⟩ := h.written
    have hmanifest := Snapshot.manifest?_of_written hencode rfl hwritten
    unfold Snapshot.next Snapshot.listed
    rw [hmanifest]
    exact ⟨rfl, rfl⟩
  · have hnone : s.manifest? = none := by
      unfold Snapshot.manifest?
      cases hholding : s.holding FileName.manifest with
      | file bytes =>
        have hname := htemporary _ _ hholding
        rw [FileName.not_isTemporary_manifest] at hname
        cases hname
      | _ => rfl
    unfold Snapshot.next Snapshot.listed
    rw [hnone]
    exact ⟨rfl, rfl⟩

/-- **Every generation that is listed** is below the next one that is recorded. -/
theorem Recoverable.listed_lt (h : Recoverable recorded segments s) :
    ∀ info ∈ s.listed, info.generation < s.next := by
  obtain ⟨hnext, hlisted⟩ := h.manifest
  intro info hmem
  rw [hlisted] at hmem
  obtain ⟨segment, hsegment, rfl⟩ := List.mem_map.1 hmem
  rw [hnext]
  exact h.below segment (List.mem_reverse.1 hsegment)

theorem Recoverable.decodes (h : Recoverable recorded segments s) {bytes : Bytes}
    (hfile : s.holding FileName.manifest = .file bytes) :
    ∃ manifest, Manifest.decode bytes = .ok manifest ∧
      ∀ info ∈ manifest.segments, info.generation < manifest.next := by
  have hlisted := h.listed_lt
  rcases h with h | ⟨-, -, -, htemporary⟩
  · obtain ⟨written, hencode, hwritten⟩ := h.written
    obtain rfl : bytes = written := Holding.file.inj (hfile.symm.trans hwritten)
    have hmanifest := Snapshot.manifest?_of_written hencode rfl hwritten
    unfold Snapshot.next Snapshot.listed at hlisted
    rw [hmanifest] at hlisted
    exact ⟨_, Manifest.decode_encode hencode rfl, hlisted⟩
  · have hname := htemporary _ _ hfile
    rw [FileName.not_isTemporary_manifest] at hname
    cases hname

/-- **A manifest that is installed** renews the one before, if it lists nothing else than segments of then
and new ones. -/
theorem Recoverable.renews (h : Recoverable recorded segments s)
    (hinstalled : Manifest.Installed (Manifest.current next (segments'.reverse.map Segment.info)) s t)
    (hle : recorded ≤ next)
    (hlisted : ∀ segment ∈ segments', segment ∈ segments ∨ recorded ≤ segment.generation) :
    Renews s t := by
  obtain ⟨bytes, hencode, hwritten⟩ := hinstalled.written
  have hmanifest := Snapshot.manifest?_of_written hencode rfl hwritten
  obtain ⟨hnext, hbefore⟩ := h.manifest
  refine ⟨?_, fun info hmem => ?_⟩
  · rw [hnext, Snapshot.next, hmanifest]
    exact hle
  · rw [Snapshot.listed, hmanifest] at hmem
    obtain ⟨segment, hsegment, rfl⟩ := List.mem_map.1 hmem
    rcases hlisted segment (List.mem_reverse.1 hsegment) with hold | hnew
    · rw [hbefore]
      exact .inl (List.mem_map_of_mem (List.mem_reverse.2 hold))
    · rw [hnext]
      exact .inr hnew

end Renews

/-! ## Directories one after the other

Renewal goes from each directory to the next one and so, being transitive, to every later one. A sequence of
mutations is taken apart as it was put together: the part of each operation leads to where the next one
starts. -/

namespace Snapshot

/-- The directories that mutations lead through, the first one and the last one among them. -/
def through (s : Snapshot) : List Mutation → List Snapshot
  | [] => [s]
  | mutation :: rest => s :: (s.replay [mutation]).through rest

/-- Each mutation leads to a directory with a manifest that renews the one before. -/
def Leads (s : Snapshot) : List Mutation → Prop
  | [] => True
  | mutation :: rest => Renews s (s.replay [mutation]) ∧ (s.replay [mutation]).Leads rest

variable {s t : Snapshot} {first second trace : List Mutation}

theorem replay_append (s : Snapshot) (first second : List Mutation) :
    s.replay (first ++ second) = (s.replay first).replay second :=
  List.foldl_append

theorem mem_through : t ∈ s.through trace ↔ ∃ first, first <+: trace ∧ s.replay first = t := by
  induction trace generalizing s with
  | nil => simp [through, List.prefix_nil, replay, eq_comm]
  | cons mutation rest ih =>
    rw [through, List.mem_cons, ih]
    constructor
    · rintro (rfl | ⟨first, hfirst, rfl⟩)
      · exact ⟨[], List.nil_prefix, rfl⟩
      · exact ⟨mutation :: first, (List.prefix_cons_inj mutation).2 hfirst, rfl⟩
    · rintro ⟨first, hfirst, rfl⟩
      rcases List.prefix_cons_iff.1 hfirst with rfl | ⟨more, rfl, hmore⟩
      · exact .inl rfl
      · exact .inr ⟨more, hmore, rfl⟩

theorem Leads.append (h : s.Leads first) (h' : (s.replay first).Leads second) :
    s.Leads (first ++ second) := by
  induction first generalizing s with
  | nil => exact h'
  | cons mutation rest ih => exact ⟨h.1, ih h.2 h'⟩

/-- Mutations that leave the manifest alone. -/
theorem Leads.of_same (h : ∀ t ∈ s.through trace, t.holding FileName.manifest =
    s.holding FileName.manifest) : s.Leads trace := by
  -- Each directory on the way holds the manifest of the first one, whichever it is counted from.
  have hrenews : ∀ {t u : Snapshot}, t.holding FileName.manifest = s.holding FileName.manifest →
      u.holding FileName.manifest = s.holding FileName.manifest → Renews t u := fun ht hu =>
    .of_eq (manifest?_congr fun bytes => by rw [ht, hu])
  have hleads : ∀ (trace : List Mutation) (t : Snapshot), (∀ u ∈ t.through trace,
      u.holding FileName.manifest = s.holding FileName.manifest) → t.Leads trace := by
    intro trace
    induction trace with
    | nil => exact fun _ _ => trivial
    | cons mutation rest ih =>
      intro t hall
      have hrest : ∀ u ∈ (t.replay [mutation]).through rest,
          u.holding FileName.manifest = s.holding FileName.manifest := fun u hmem =>
        hall u (List.mem_cons_of_mem _ hmem)
      have hnow := hall t List.mem_cons_self
      have hnext := hrest _ (mem_through.2 ⟨[], List.nil_prefix, rfl⟩)
      exact ⟨hrenews hnow hnext, ih _ hrest⟩
  exact hleads trace s h

end Snapshot

/-- Between one directory and another the manifest is renewed from each to every later one. -/
structure Lineage (s : Snapshot) (moments : List Snapshot) (t : Snapshot) : Prop where
  whole : Renews s t
  after : ∀ moment ∈ moments, Renews s moment
  before : ∀ moment ∈ moments, Renews moment t
  ordered : moments.Pairwise Renews

/-- One directory, and one after it with a manifest that renews its own. -/
theorem Lineage.single {s t : Snapshot} (h : Renews s t) : Lineage s [s] t := by
  refine ⟨h, fun moment hmem => ?_, fun moment hmem => ?_, List.pairwise_singleton _ _⟩
  · rw [List.mem_singleton.1 hmem]
    exact .refl s
  · rw [List.mem_singleton.1 hmem]
    exact h

theorem Lineage.append {s t u : Snapshot} {moments more : List Snapshot} (h : Lineage s moments t)
    (h' : Lineage t more u) : Lineage s (moments ++ more) u := by
  refine ⟨h.whole.trans h'.whole, fun moment hmem => ?_, fun moment hmem => ?_, ?_⟩
  · rcases List.mem_append.1 hmem with hmem | hmem
    · exact h.after moment hmem
    · exact h.whole.trans (h'.after moment hmem)
  · rcases List.mem_append.1 hmem with hmem | hmem
    · exact (h.before moment hmem).trans h'.whole
    · exact h'.before moment hmem
  · refine List.pairwise_append.2 ⟨h.ordered, h'.ordered, fun earlier hearlier later hlater => ?_⟩
    exact (h.before earlier hearlier).trans (h'.after later hlater)

/-- What holds from each directory to the next one holds from each to every later one. -/
theorem Snapshot.Leads.lineage {s : Snapshot} {trace : List Mutation} (h : s.Leads trace) :
    Lineage s (s.through trace) (s.replay trace) := by
  induction trace generalizing s with
  | nil => exact .single (.refl s)
  | cons mutation rest ih => exact (Lineage.single h.1).append (ih h.2)

/-! ## Operations

What is asked of an operation is asked of each mutation that it issues, so it is put together from its parts:
one after the other, with a clean-up after a failure, down to a single mutation. What leaves the manifest
alone renews it. -/

variable {σ α β : Type} [OnDisk σ]

/-- Run in a state, the operation issues mutations each of which renews the manifest. -/
def Advances (operation : StateM σ α) (state : σ) : Prop :=
  (disk state).Plain → ∃ trace : List Mutation,
    (disk (operation.run state).2).issued = (disk state).issued ++ trace ∧
    (disk state).snapshot.replay trace = (disk (operation.run state).2).snapshot ∧
    (disk state).snapshot.Leads trace

namespace Advances

variable {operation : StateM σ α} {state : σ} {middle : α → σ → Prop} {crash : Snapshot → Prop}

/-- An operation that leaves the manifest alone. -/
theorem of_runs (h : Runs operation state middle crash) (hsame : ∀ t, crash t →
    t.holding FileName.manifest = (disk state).snapshot.holding FileName.manifest) :
    Advances operation state := by
  intro hplain
  obtain ⟨trace, -, hissued, hreplay, hcrash, -⟩ := h hplain
  refine ⟨trace, hissued, hreplay, .of_same fun t hmem => ?_⟩
  obtain ⟨first, hfirst, rfl⟩ := Snapshot.mem_through.1 hmem
  exact hsame _ (hcrash first hfirst)

theorem of_within {names : List String} (h : Runs operation state middle (Within names (disk state).snapshot))
    (hnames : FileName.manifest ∉ names) : Advances operation state :=
  of_runs h fun _ ht => ht.same _ hnames

theorem of_disk_eq {a : α} {after : σ} (hrun : operation.run state = (a, after))
    (hdisk : disk after = disk state) : Advances operation state := by
  intro _
  rw [hrun]
  refine ⟨[], ?_, ?_, trivial⟩
  · rw [hdisk, List.append_nil]
  · rw [hdisk]
    rfl

theorem of_run_eq (operation' : StateM σ α) (state' : σ) (hdisk : disk state' = disk state)
    (heq : operation.run state = operation'.run state') (h : Advances operation' state') :
    Advances operation state := by
  unfold Advances at h ⊢
  rw [heq, ← hdisk]
  exact h

theorem map {f : α → β} (h : Advances operation state) : Advances (f <$> operation) state := h

theorem bind {next : α → StateM σ β} (hruns : Runs operation state middle crash)
    (h : Advances operation state)
    (hnext : ∀ a after, operation.run state = (a, after) → middle a after → Advances (next a) after) :
    Advances (operation >>= next) state := by
  intro hplain
  obtain ⟨trace, hissued, hreplay, hleads⟩ := h hplain
  obtain ⟨trace', hissued', hreplay', hleads'⟩ :=
    hnext _ _ rfl (hruns.apply hplain).1 (hruns.plain hplain)
  refine ⟨trace ++ trace', ?_, ?_, hleads.append ?_⟩
  · rw [← List.append_assoc, ← hissued]
    exact hissued'
  · rw [Snapshot.replay_append, hreplay]
    exact hreplay'
  · rw [hreplay]
    exact hleads'

section Failing

variable {operation : ExceptT Error (StateM σ) α} {middle : Except Error α → σ → Prop}

theorem liftThen {operation : StateM σ α} {middle : α → σ → Prop}
    {next : α → ExceptT Error (StateM σ) β} (hruns : Runs operation state middle crash)
    (h : Advances operation state)
    (hnext : ∀ a after, operation.run state = (a, after) → middle a after → Advances (next a).run after) :
    Advances ((liftM operation : ExceptT Error (StateM σ) α) >>= next).run state :=
  of_run_eq (operation >>= fun a => (next a).run) state rfl rfl (bind hruns h hnext)

theorem andThen {next : α → ExceptT Error (StateM σ) β} (hruns : Runs operation.run state middle crash)
    (h : Advances operation.run state)
    (hok : ∀ a after, operation.run.run state = (.ok a, after) → middle (.ok a) after →
      Advances (next a).run after) : Advances (operation >>= next).run state := by
  show Advances (operation.run >>= ExceptT.bindCont next) state
  refine bind hruns h ?_
  rintro (error | a) after heq hmiddle
  · exact of_disk_eq rfl rfl
  · exact hok a after heq hmiddle

end Failing

theorem orElse {operation : DiskM α} {cleanUp : StateM Disk Unit} {start : Disk}
    {middle : Except Error α → Disk → Prop} (hruns : Runs operation.run start middle crash)
    (h : Advances operation.run start)
    (herror : ∀ error after, middle (.error error) after → Advances cleanUp after) :
    Advances (Disk.orElse operation cleanUp).run start := by
  show Advances (tryCatch operation fun error => do cleanUp; throw error : DiskM α).run start
  rw [ExceptT.run_tryCatch]
  refine bind hruns h ?_
  rintro (error | a) after - hmiddle
  · exact of_run_eq ((fun _ => .error error) <$> cleanUp) after rfl rfl
      (.map (herror error after hmiddle))
  · exact of_disk_eq rfl rfl

theorem onDisk {operation : DiskM α} {workspace : Maintenance.Workspace}
    (h : Advances operation.run workspace.disk) : Advances (Maintenance.onDisk operation).run workspace := h

theorem mutate {mutation : Mutation} {start : Disk} {middle : Except Error Unit → Disk → Prop}
    (hruns : Runs (Disk.mutate mutation).run start middle crash)
    (hrenews : ∀ result after, middle result after → Renews start.snapshot after.snapshot) :
    Advances (Disk.mutate mutation).run start := by
  intro (hplain : start.Plain)
  have hafter := hrenews _ _ (hruns.apply hplain).1
  have heq : (⟨start.snapshot.names, start.contents⟩ : Snapshot) = start.snapshot := rfl
  cases happly : start.snapshot.apply mutation with
  | error cause =>
    have hrun : (Disk.mutate mutation).run.run start = (.error (.io cause), start) := by
      simp only [Disk.mutate, Disk.perform, ExceptT.run, ExceptT.mk, StateT.run, hplain.reach_eq, heq,
        happly, Except.map]
    rw [hrun]
    exact ⟨[], (List.append_nil _).symm, rfl, trivial⟩
  | ok changed =>
    have hrun : (Disk.mutate mutation).run.run start = (.ok (), { start with
        folder := .ok changed.names
        contents := changed.contents
        issued := start.issued ++ [mutation] }) := by
      simp only [Disk.mutate, Disk.perform, ExceptT.run, ExceptT.mk, StateT.run, hplain.reach_eq, heq,
        happly, Except.map]
    have hreplay : start.snapshot.replay [mutation] = changed := by
      simp [Snapshot.replay, happly]
    rw [hrun] at hafter ⊢
    have hfirst : Renews start.snapshot (start.snapshot.replay [mutation]) := by
      rw [hreplay]
      exact hafter
    exact ⟨[mutation], rfl, hreplay, hfirst, trivial⟩

end Advances

/-! ## Storing a manifest -/

/-- **Storing a manifest** goes forward if what is installed renews what is there. -/
theorem Manifest.advances_store {manifest : Manifest} {start : Disk} (hu : start.snapshot.Unshared)
    (hrenews : ∀ t, Installed manifest start.snapshot t → Renews start.snapshot t) :
    Advances manifest.store.run start := by
  have hne := FileName.temporary_manifest_ne_manifest
  have hother : FileName.manifest ∉ [FileName.temporary FileName.manifest] := by
    simp [hne.symm]
  cases hencode : manifest.encode with
  | error error =>
    have hrun : manifest.store.run.run start = (.error error, start) := by
      rw [store, hencode]
      rfl
    exact .of_disk_eq hrun rfl
  | ok bytes =>
    refine Advances.of_run_eq (do
        let file ← Disk.create (FileName.temporary FileName.manifest)
        Disk.write file 0 bytes
        Disk.orElse (Disk.mutate (.rename (FileName.temporary FileName.manifest) FileName.manifest))
          (Disk.attempt (.unlink (FileName.temporary FileName.manifest))) : DiskM Unit).run start rfl ?_ ?_
    · rw [store, hencode]
      rfl
    have hcreate : Runs (Disk.create (FileName.temporary FileName.manifest)).run start _ _ :=
      Runs.create hu
    refine Advances.andThen (hcreate.within (.refl _ hu) (List.Subset.refl _))
      (.of_within hcreate hother) ?_
    rintro file disk₁ - ⟨⟨hfree, hnamed, -, hholding⟩, -, hwithin₁⟩
    have hempty : disk₁.snapshot.contents.get file = [] := by
      have hfile := hholding (FileName.temporary FileName.manifest)
      rw [if_pos rfl, Snapshot.holding_of_get?_file hnamed] at hfile
      exact Holding.file.inj hfile
    have hwrite := Runs.write hwithin₁.unshared hnamed 0 bytes
    refine Advances.liftThen (hwrite.within hwithin₁ (List.Subset.refl _))
      (.of_within hwrite hother) ?_
    rintro ⟨⟩ disk₂ - ⟨⟨-, hholding₂⟩, -, hwithin₂⟩
    have hwritten : disk₂.snapshot.holding (FileName.temporary FileName.manifest) = .file bytes := by
      rw [hholding₂, if_pos rfl, hempty]
      exact congrArg Holding.file (Contents.overwritten_length [] bytes)
    have hrename := (Runs.renameWithin hwithin₂.unshared hwritten hne).withCrash
    -- Until the rename the manifest is the old one.
    have hback : Renews disk₂.snapshot start.snapshot :=
      .of_eq (Snapshot.manifest?_congr fun bytes => by rw [hwithin₂.same _ hother])
    refine Advances.orElse hrename (.mutate hrename ?_) ?_
    · rintro (error | ⟨⟩) after ⟨hpost, hrenamed⟩
      · rw [hpost.1]
        exact .refl _
      · exact hback.trans (hrenews _ (.of_renamed hencode hfree hwithin₂ hrenamed.unshared hpost.2))
    · rintro error after ⟨⟨rfl, -⟩, -⟩
      exact .of_within (Runs.unlink hwithin₂.unshared) hother

/-! ## Maintenance

An engine lists segments of the directory and new ones. The new ones are of the next generation of the
engine, which is not below the one that the manifest records. -/

namespace Maintenance

variable {start : Workspace} {recorded : UInt64}

theorem advances_commit {segments : List Segment} {committed : List Segment} (built : Option Segment)
    (hkept : Kept recorded start.next committed start.snapshot)
    (hlisted : ∀ segment ∈ segments, segment ∈ committed ∨ recorded ≤ segment.generation) :
    Advances (commit segments built).run start := by
  refine Advances.of_run_eq (onDisk (Disk.orElse (start.engine.manager.commit segments)
    (built.forM fun segment => Segment.remove segment.generation))).run start rfl
    (run_commit segments built) (Advances.onDisk ?_)
  refine Advances.orElse (Manifest.runs_store _ hkept.unshared)
    (Manifest.advances_store hkept.unshared fun t hinstalled =>
      hkept.recoverable.renews hinstalled hkept.recorded_le hlisted) ?_
  rintro error disk ⟨hrestored, -⟩
  cases built with
  | none => exact .of_disk_eq rfl rfl
  | some segment =>
    exact .of_within (Segment.runs_remove segment.generation hrestored.unshared)
      (by simp [(FileName.segment_ne_manifest _ _).symm])

theorem advances_writeTable {table : Nat} (rest : List Nat) (hkeeps : start.Keeps recorded)
    (hroom : start.next.toNat + 1 < UInt64.size) : Advances (writeTable table rest).run start := by
  have hbuild := runs_build (start.memory.table table).entries hkeeps.unshared
  refine Advances.of_run_eq _ start rfl (run_get_bind _) ?_
  refine Advances.andThen hbuild (.of_within hbuild (FileName.manifest_not_mem_ofGeneration _)) ?_
  rintro (_ | segment) middle - ⟨hmiddle, hbuilt⟩
  · exact .of_disk_eq rfl rfl
  · have hnext : middle.next = start.next + 1 := by
      rw [hmiddle]
      rfl
    have hkept : Kept recorded middle.next start.engine.live middle.snapshot := by
      rw [hnext]
      exact hkeeps.spared hroom (hbuilt.within.mono (List.subset_cons_self _ _))
    have hlisted : ∀ other ∈ segment :: start.engine.live, other ∈ start.engine.live ∨
        recorded ≤ other.generation := by
      intro other hmem
      rcases List.mem_cons.1 hmem with rfl | hold
      · rw [(hbuilt.stored other rfl).1]
        exact .inr hkeeps.recorded_le
      · exact .inl hold
    refine Advances.andThen (runs_commit _ hbuilt) (advances_commit (some segment) hkept hlisted) ?_
    rintro ⟨⟩ last - -
    exact .of_disk_eq rfl rfl

/-- **Writing the waiting tables out**, by induction on what still waits: each commit renews the manifest
of the one before. -/
theorem advances_flushTables {tables : List Nat} (hqueue : start.engine.queue = tables)
    (hasc : ∀ segment ∈ start.engine.live, Ascending segment.entries) (hkeeps : start.Keeps recorded)
    (hroom : start.next.toNat + attempts tables start < UInt64.size) :
    Advances (flushTables tables).run start := by
  induction tables generalizing start recorded with
  | nil => exact .of_disk_eq rfl rfl
  | cons table rest ih =>
    rw [flushTables_cons]
    have hfirst : start.next.toNat + 1 < UInt64.size := by
      have hpos := attempts_pos (List.cons_ne_nil table rest) start
      omega
    refine Advances.andThen (runs_writeTable hqueue hkeeps.unshared hasc).withRun
      (advances_writeTable rest hkeeps hfirst) ?_
    rintro ⟨⟩ middle - ⟨⟨-, hdrained⟩, hrun⟩
    obtain ⟨recorded', -, hmiddle⟩ := hdrained.keeps hkeeps hfirst
    refine ih hdrained.queue hdrained.ascending hmiddle ?_
    rw [attempts_of_ok hrun] at hroom
    rw [hdrained.next, toNat_add_ofNat hfirst]
    omega

theorem advances_flushAll (hsound : start.engine.Sound start.memory) (hkeeps : start.Keeps recorded)
    (hroom : start.next.toNat + flushed start < UInt64.size) : Advances flushAll.run start := by
  refine Advances.of_run_eq (flushTables start.frozen.engine.queue).run start.frozen frozen_disk run_flushAll
    (advances_flushTables rfl (sound_frozen hsound).ascending (keeps_frozen hkeeps) ?_)
  rw [Workspace.next, frozen_manager]
  exact hroom

theorem advances_flush (hopen : start.engine.closed = false) (hsound : start.engine.Sound start.memory)
    (hkeeps : start.Keeps recorded) (hroom : start.next.toNat + flushed start < UInt64.size) :
    Advances flush.run start :=
  .of_run_eq flushAll.run start rfl (run_flush hopen) (advances_flushAll hsound hkeeps hroom)

theorem advances_close (hopen : start.engine.closed = false) (hsound : start.engine.Sound start.memory)
    (hkeeps : start.Keeps recorded) (hroom : start.next.toNat + flushed start < UInt64.size) :
    Advances close.run start := by
  refine Advances.of_run_eq closeOpen.run start rfl (run_close hopen) ?_
  refine Advances.andThen (runs_flushAll hkeeps.unshared hsound)
    (advances_flushAll hsound hkeeps hroom) ?_
  rintro ⟨⟩ last - -
  exact .of_disk_eq rfl rfl

theorem advances_compactLayers (inUse : Handle → Bool)
    (hasc : ∀ segment ∈ start.engine.live, Ascending segment.entries) (hkeeps : start.Keeps recorded)
    (hroom : start.next.toNat + 1 < UInt64.size) : Advances (compactLayers inUse start).run start := by
  have hhandles : ∀ handle ∈ start.engine.segments, Ascending handle.segment.entries :=
    fun handle hmem => hasc _ (List.mem_map_of_mem hmem)
  have hbuild : Runs (build (compacted start.memory start.engine)).run start _ _ :=
    runs_build _ hkeeps.unshared
  refine Advances.andThen hbuild (.of_within hbuild (FileName.manifest_not_mem_ofGeneration _)) ?_
  rintro built middle - ⟨hmiddle, hbuilt⟩
  have hnext : middle.next = start.next + 1 := by
    rw [hmiddle]
    rfl
  have hkept : Kept recorded middle.next start.engine.live middle.snapshot := by
    rw [hnext]
    exact hkeeps.spared hroom (hbuilt.within.mono (List.subset_cons_self _ _))
  have hlisted : ∀ segment ∈ built.toList, segment ∈ start.engine.live ∨
      recorded ≤ segment.generation := by
    intro segment hmem
    rw [(hbuilt.stored segment (Option.mem_toList.1 hmem)).1]
    exact .inr hkeeps.recorded_le
  refine Advances.andThen (runs_commit _ hbuilt).withCrash (advances_commit built hkept hlisted) ?_
  rintro ⟨⟩ last - ⟨⟨-, hcommits⟩, -⟩
  -- After the commit only files of segments are taken away.
  have hretire := runs_retire inUse start.engine.segments hcommits.within.unshared
  refine Advances.of_run_eq _ _ ?_ (run_replace inUse built start.engine.segments) (Advances.onDisk ?_)
  · rfl
  · exact Advances.of_run_eq (Except.ok <$> retire inUse start.engine.segments) last.disk rfl rfl
      (.map (.of_within hretire (FileName.manifest_not_mem_halves _)))

theorem advances_compact (inUse : Handle → Bool) (hopen : start.engine.closed = false)
    (hsound : start.engine.Sound start.memory) (hkeeps : start.Keeps recorded)
    (hroom : start.next.toNat + merges start < UInt64.size) : Advances (compact inUse).run start := by
  refine Advances.of_run_eq _ start.frozen frozen_disk (run_compact inUse hopen) ?_
  by_cases hbare : start.frozen.isBare = true
  · rw [if_pos hbare]
    exact .of_disk_eq rfl rfl
  · rw [if_neg hbare]
    rw [merges, if_neg hbare] at hroom
    refine advances_compactLayers inUse (sound_frozen hsound).ascending (keeps_frozen hkeeps) ?_
    rw [Workspace.next, frozen_manager]
    exact hroom

end Maintenance

/-! ## Opening -/

/-- **An opening** writes a manifest anew that lists what was listed. -/
theorem Manager.advances_recover {start : Disk} {recorded : UInt64} {segments : List Segment}
    (config : Config) (h : Recoverable recorded segments start.snapshot) :
    Advances (recover config).run start := by
  -- Nothing of what is removed is the manifest.
  have hleftovers : FileName.manifest ∉ leftovers start.snapshot.names.fileNames := fun hmem =>
    FileName.ne_of_isTemporary (isTemporary_of_mem_leftovers hmem) FileName.not_isTemporary_manifest rfl
  have hunlisted : ∀ {found : Found} {holding : Holding}, FileName.manifest ∉ unlisted found holding := by
    intro found holding hmem
    obtain ⟨generation, -, hname⟩ := mem_unlisted hmem
    obtain ⟨half, hname⟩ := FileName.mem_halves.1 hname
    exact FileName.segment_ne_manifest _ _ hname.symm
  refine Advances.andThen (runs_scan h.unshared) (.of_within (runs_scan h.unshared) hleftovers) ?_
  rintro names disk₁ - ⟨hnames, hscanned⟩
  cases hnames
  have hcommitted := runs_committed config.verifyChecksums (found start.snapshot.names.fileNames)
    hscanned.unshared
  refine Advances.andThen hcommitted.withCrash (.of_within hcommitted hunlisted) ?_
  rintro ⟨opened, next⟩ disk₂ - ⟨hfinds, hwithin⟩
  obtain ⟨ht, hresult⟩ := hfinds.recoverable h hscanned
  rcases hresult with hresult | ⟨-, error, hresult⟩
  · cases hresult
    refine Advances.andThen (Manifest.runs_store _ hwithin.unshared)
      (Manifest.advances_store hwithin.unshared fun t hinstalled => ?_) ?_
    · rw [List.reverse_reverse] at hinstalled
      exact ht.renews hinstalled (le_resumed _ recorded) fun segment hmem => .inl hmem
    · rintro ⟨⟩ last - -
      exact .of_disk_eq rfl rfl
  · cases hresult

end LsmTree
