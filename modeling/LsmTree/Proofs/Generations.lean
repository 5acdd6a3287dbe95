import LsmTree.Proofs.CrashAtomicity
import LsmTree.Proofs.Renewal
import Mathlib.Data.List.Destutter

/-!
# Generations over the life of a directory

A directory outlives the processes that use it. Each of them hands out generations from where its opening
resumed, and a crash makes it forget how far it had come; what is committed must be told apart all the same.

* **`World.passes`** — the directories that an event passes through, mutation by mutation;
* **`World.Endures`** — the life of a directory: events, and processes that end in the middle of one;
* **`World.Consistent.passing`** — an event passes only through directories that an opening can go on
  from, with manifests that renew each other;
* **`World.generations_never_reused`** — what that makes of the generations.
-/

namespace LsmTree

open Snapshot (Within SameFiles)
open OnDisk (disk)

/-- A lineage of directories that an opening can go on from. -/
structure Lasting (limit : Nat) (s : Snapshot) (moments : List Snapshot) (t : Snapshot) : Prop
    extends Lineage s moments t where
  survives : ∀ moment ∈ moments, ∃ segments, Survives limit segments moment

section Lasting

variable {limit more : Nat} {s t u : Snapshot} {moments later : List Snapshot} {segments : List Segment}

theorem Shows.survives {content : Content} (h : Shows limit content s) :
    ∃ segments, Survives limit segments s := by
  obtain ⟨recorded, next, segments, hkept, hnext, -⟩ := h
  have hrecorded := UInt64.le_iff_toNat_le.1 hkept.recorded_le
  exact ⟨segments, recorded, hkept.recoverable, Nat.le_trans hrecorded hnext, hkept.tidy.mono hnext⟩

theorem Lasting.mono (h : Lasting limit s moments t) (hle : limit ≤ more) : Lasting more s moments t := by
  refine ⟨h.toLineage, fun moment hmem => ?_⟩
  obtain ⟨segments, hsurvives⟩ := h.survives moment hmem
  exact ⟨segments, hsurvives.mono hle⟩

theorem Lasting.append (h : Lasting limit s moments t) (h' : Lasting limit t later u) :
    Lasting limit s (moments ++ later) u := by
  refine ⟨h.toLineage.append h'.toLineage, fun moment hmem => ?_⟩
  rcases List.mem_append.1 hmem with hmem | hmem
  · exact h.survives moment hmem
  · exact h'.survives moment hmem

theorem Lasting.single (hsurvives : Survives limit segments s) (hrenews : Renews s t) :
    Lasting limit s [s] t := by
  refine ⟨.single hrenews, fun moment hmem => ⟨segments, ?_⟩⟩
  rw [List.mem_singleton.1 hmem]
  exact hsurvives

/-- The part of a lineage up to a directory that it passes through. -/
theorem Lasting.cut {earlier : List Snapshot} (h : Lasting limit s (earlier ++ t :: later) u) :
    Lasting limit s (earlier ++ [t]) t := by
  have hsub : (earlier ++ [t]).Sublist (earlier ++ t :: later) :=
    List.Sublist.append (List.Sublist.refl _) (List.singleton_sublist.2 List.mem_cons_self)
  have hmem : t ∈ earlier ++ t :: later := List.mem_append_right _ List.mem_cons_self
  refine ⟨⟨h.after t hmem, fun moment hmoment => h.after moment (hsub.subset hmoment),
    fun moment hmoment => ?_, h.ordered.sublist hsub⟩,
    fun moment hmoment => h.survives moment (hsub.subset hmoment)⟩
  rcases List.mem_append.1 hmoment with hearlier | hlast
  · exact (List.pairwise_append.1 h.ordered).2.2 moment hearlier t List.mem_cons_self
  · rw [List.mem_singleton.1 hlast]
    exact .refl t

/-- **An operation** passes through a lineage, if a crash in it leaves what an opening can go on from. -/
theorem Lasting.of_runs {σ α : Type} [OnDisk σ] {operation : StateM σ α} {state : σ} {post : α → σ → Prop}
    {crash : Snapshot → Prop} (hplain : (disk state).Plain) (hnone : (disk state).issued = [])
    (hruns : Runs operation state post crash) (hadvances : Advances operation state)
    (hcrash : ∀ t, crash t → ∃ segments, Survives limit segments t) :
    Lasting limit (disk state).snapshot
      ((disk state).snapshot.through (disk (operation.run state).2).issued)
      (disk (operation.run state).2).snapshot := by
  obtain ⟨trace, hissued, hreplay, hleads⟩ := hadvances hplain
  rw [hnone, List.nil_append] at hissued
  rw [hissued, ← hreplay]
  refine ⟨hleads.lineage, fun moment hmem => ?_⟩
  obtain ⟨first, hfirst, rfl⟩ := Snapshot.mem_through.1 hmem
  exact hcrash _ (hruns.crashes hplain hnone (hissued.symm ▸ hfirst))

end Lasting

namespace World

variable {world : World} {ledger : Ledger} {engine : Engine}

/-- The mutations of the directory that an opening issues. -/
def opens (world : World) (config : Config) : List Mutation :=
  ((Manager.recover config).run.run (.ofSnapshot world.dir)).2.issued

/-- Those by which the files of replaced segments are taken away that no cursor holds. -/
def releases (world : World) : List Mutation :=
  ((Manager.removeAll ((world.replaced.partition world.isHeld).2.map fun handle =>
    handle.segment.generation)).run (.ofSnapshot world.dir)).2.issued

/-- The directories that an event passes through until it is answered. -/
def passesActing (world : World) : Event → List Snapshot
  | .load config => world.dir.through (world.issued Maintenance.close) ++
      world.discard.dir.through (world.discard.opens config)
  | .drop => world.dir.through (world.issued Maintenance.close)
  | event => world.dir.through (world.issues event)

/-- The directories that an event passes through, mutation by mutation, in their order. -/
def passes (world : World) (event : Event) : List Snapshot :=
  world.passesActing event ++ (world.act event).2.dir.through (world.act event).2.releases

/-- The life of a directory that was empty at the start: all directories that it was, one after the other,
and how many generations were handed out. A process may end at any moment of an event; the next one starts
from the directory of that moment, and the generations of that event count as if it had come to its end. -/
inductive Endures : World → List Snapshot → Nat → Prop
  | start : Endures .empty [.empty] 0
  | step {world : World} {history : List Snapshot} {handed : Nat} (h : Endures world history handed)
    (event : Event) :
    Endures (world.step event).2 (history ++ world.passes event) (handed + world.handsOut event)
  | cut {world : World} {history : List Snapshot} {handed : Nat} (h : Endures world history handed)
    (event : Event) {first : List Snapshot} {now : Snapshot} (hfirst : first <+: world.passes event)
    (hnow : first.getLast? = some now) :
    Endures (.ofDir now) (history ++ first) (handed + world.handsOut event)

/-- The directories that events pass through, and how many generations they hand out. -/
def course (world : World) : List Event → List Snapshot × Nat
  | [] => ([], 0)
  | event :: rest =>
    let (moments, handed) := (world.step event).2.course rest
    (world.passes event ++ moments, world.handsOut event + handed)

theorem Endures.run {history : List Snapshot} {handed : Nat} (h : Endures world history handed)
    (events : List Event) : Endures (world.run events).2 (history ++ (world.course events).1)
      (handed + (world.course events).2) := by
  induction events generalizing world history handed with
  | nil =>
    show Endures world (history ++ []) handed
    rw [List.append_nil]
    exact h
  | cons event rest ih =>
    have hrest := ih (h.step event)
    rw [List.append_assoc, Nat.add_assoc] at hrest
    exact hrest

/-! ## What an event passes through

An event is answered first and then the files are taken away that no cursor holds any more; each of the two
is an operation on the directory of that moment. Loading is two operations of its own: the engine that was
there closes the directory before the new one opens it.

For each operation two facts are put together: what a crash in it leaves behind can be opened, and each of
its mutations renews the manifest. -/

theorem Consistent.survives (h : Consistent world ledger) :
    ∃ segments, Survives (ledger.handedOut + 1) segments world.dir := by
  obtain ⟨recorded, segments, hrecoverable, hrecorded, -⟩ := h.forget.stored
  exact ⟨segments, recorded, hrecoverable, hrecorded, h.forget.tidy⟩

theorem Using.lasting {α : Type} {step : Maintenance.MaintenanceM α} {reached : List Nat → Prop}
    {handed : Nat} {post : Except Error α → Maintenance.Workspace → Prop} (h : Using world ledger engine)
    (hruns : Runs step.run (world.workspace engine) post
      (Maintenance.Interrupted reached handed (world.workspace engine).frozen))
    (hadvances : Advances step.run (world.workspace engine))
    (hroom : ledger.handedOut + handed < UInt64.size - 1) :
    Lasting (ledger.handedOut + handed + 1) world.dir (world.dir.through (world.issued step))
      (world.maintain step).2.dir := by
  rw [issued, h.present, maintain_eq _ h.present]
  refine Lasting.of_runs (Disk.plain_ofSnapshot world.dir) rfl hruns hadvances fun t ht => ?_
  obtain ⟨written, -, hshows⟩ := h.shows ht hroom
  exact hshows.survives

theorem Consistent.maintaining (h : Consistent world ledger) {event : Event}
    (hpersists : event.persists = true)
    (hroom : ledger.handedOut + world.handsOut event < UInt64.size - 1) :
    Lasting (ledger.handedOut + world.handsOut event + 1) world.dir
      (world.dir.through (world.issues event)) (world.act event).2.dir := by
  rcases h with ⟨engine, husing⟩ | hidle
  · obtain ⟨recorded, hkeeps, -⟩ := husing.keeps
    have hbefore := Nat.lt_of_le_of_lt (Nat.le_add_right _ _) hroom
    cases event with
    | flush =>
      rw [husing.handsOut_flush hbefore] at hroom ⊢
      exact husing.lasting (Maintenance.runs_flush husing.opened husing.unshared husing.sound)
        (Maintenance.advances_flush husing.opened husing.sound hkeeps (husing.room hroom)) hroom
    | compact =>
      rw [husing.handsOut_compact hbefore] at hroom ⊢
      exact husing.lasting (Maintenance.runs_compact world.isHeld husing.opened husing.unshared husing.sound)
        (Maintenance.advances_compact world.isHeld husing.opened husing.sound hkeeps (husing.room hroom))
        hroom
    | close =>
      rw [husing.handsOut_close hbefore] at hroom ⊢
      exact husing.lasting (Maintenance.runs_close husing.opened husing.unshared husing.sound)
        (Maintenance.advances_close husing.opened husing.sound hkeeps (husing.room hroom)) hroom
    | _ => cases hpersists
  · -- Without an engine at work nothing becomes of the directory.
    obtain ⟨segments, hsurvives⟩ := Consistent.survives (.inr hidle)
    rw [hidle.issues_eq hpersists, (hidle.act_eq hpersists).1]
    exact .single (hsurvives.mono (by omega)) (.refl _)

theorem Idle.opening (h : Idle world ledger) (hnone : world.engine = none)
    (hroom : ledger.handedOut < UInt64.size - 1) (config : Config) :
    Lasting (ledger.handedOut + 1) world.dir (world.dir.through (world.opens config))
      (world.act (.load config)).2.dir := by
  obtain ⟨recorded, segments, hrecoverable, hrecorded, -⟩ := h.stored
  -- A failed opening leaves what it had done until then, like one that succeeds.
  have hdir : (world.act (.load config)).2.dir =
      ((Manager.recover config).run.run (.ofSnapshot world.dir)).2.snapshot := by
    rw [act, discard_none hnone, World.load]
    cases hrun : (Manager.recover config).run.run (.ofSnapshot world.dir) with
    | mk result disk =>
      cases result with
      | error error => rfl
      | ok opened => rfl
  have hplain := Disk.plain_ofSnapshot world.dir
  have hruns : Runs (Manager.recover config).run (Disk.ofSnapshot world.dir) _
      (Survives (ledger.handedOut + 1) segments) :=
    Manager.runs_recover config hrecoverable h.tidy hrecorded (Nat.succ_pos _) (by omega)
  rw [hdir]
  exact Lasting.of_runs hplain rfl hruns (Manager.advances_recover config hrecoverable)
    fun t ht => ⟨segments, ht⟩

/-- Changes under the names of segments that are not listed any more. -/
theorem survives_released {replaced : List Handle} {recorded : UInt64} {segments : List Segment}
    {limit : Nat} {s t : Snapshot} (h : Maintenance.Spares replaced recorded segments)
    (hrecoverable : Recoverable recorded segments s) (hrecorded : recorded.toNat ≤ limit)
    (htidy : Tidy limit s)
    (hwithin : Within ((replaced.map fun handle => handle.segment.generation).flatMap FileName.halves)
      s t) : Survives limit segments t := by
  refine ⟨recorded, ?_, hrecorded, htidy.within hwithin fun name hname => ?_⟩
  · rcases hrecoverable with hcommitted | ⟨rfl, hsegments, -, htemporary⟩
    · refine .inl (hcommitted.removed hwithin fun generation hmem => ?_)
      obtain ⟨handle, hhandle, rfl⟩ := List.mem_map.1 hmem
      exact (h handle hhandle).2
    · -- No generation is below the one recorded, so nothing was replaced.
      have hnone : replaced = [] :=
        List.eq_nil_iff_forall_not_mem.2 fun handle hmem => UInt64.not_lt_zero (h handle hmem).1
      rw [hnone] at hwithin
      refine .inr ⟨rfl, hsegments, hwithin.unshared, fun name bytes hfile => ?_⟩
      exact htemporary name bytes ((hwithin.same name List.not_mem_nil).symm.trans hfile)
  · obtain ⟨generation, hmem, hname⟩ := List.mem_flatMap.1 hname
    obtain ⟨handle, hhandle, rfl⟩ := List.mem_map.1 hmem
    obtain ⟨half, hname⟩ := FileName.mem_halves.1 hname
    have hlt := UInt64.lt_iff_toNat_lt.1 (h handle hhandle).1
    exact .inr (.inr ⟨_, Nat.lt_of_lt_of_le hlt hrecorded,
      FileName.mem_ofGeneration.2 ⟨half, .inl hname⟩⟩)

/-- **Taking files of replaced segments away**: none of them is listed. -/
theorem Consistent.releasing (h : Consistent world ledger) :
    Lasting (ledger.handedOut + 1) world.dir (world.dir.through world.releases) world.releaseFiles.dir := by
  obtain ⟨recorded, segments, hrecoverable, hrecorded, hspares, -⟩ := h.forget.stored
  have hunheld : (world.replaced.partition world.isHeld).2 ⊆ world.replaced := by
    rw [List.partition_eq_filter_filter]
    exact List.filter_sublist.subset
  have hu : (Disk.ofSnapshot world.dir).snapshot.Unshared := h.unshared
  have hruns := Manager.runs_removeAll ((world.replaced.partition world.isHeld).2.map fun handle =>
    handle.segment.generation) hu
  refine Lasting.of_runs (Disk.plain_ofSnapshot world.dir) rfl hruns
    (.of_within hruns (FileName.manifest_not_mem_halves _)) fun t ht => ⟨segments, ?_⟩
  exact survives_released (hspares.subset hunheld) hrecoverable hrecorded h.forget.tidy ht

theorem lasting_change {changed : Except OsError Directory} {limit : Nat} {segments : List Segment}
    (hsurvives : Survives limit segments world.dir)
    (hsame : ∀ names, changed = .ok names → SameFiles world.dir { world.dir with names }) :
    Lasting limit world.dir [world.dir] (world.change changed).2.dir := by
  cases hcase : changed with
  | error cause => exact .single hsurvives (.refl _)
  | ok names =>
    refine .single hsurvives (.of_eq (Snapshot.manifest?_congr fun bytes => ?_))
    exact (hsame names hcase).same _ _

theorem Consistent.acting (h : Consistent world ledger) (event : Event)
    (hroom : ledger.handedOut + world.handsOut event < UInt64.size - 1) :
    Lasting (ledger.handedOut + world.handsOut event + 1) world.dir (world.passesActing event)
      (world.act event).2.dir := by
  obtain ⟨segments, hsurvives⟩ := h.survives
  replace hsurvives := hsurvives.mono (Nat.succ_le_succ (Nat.le_add_right _ (world.handsOut event)))
  -- Events that are no maintenance leave the manifest as it is, and most of them the whole directory.
  have hnothing : (world.act event).2.dir = world.dir → Lasting
      (ledger.handedOut + world.handsOut event + 1) world.dir [world.dir] (world.act event).2.dir := by
    intro hdir
    rw [hdir]
    exact .single hsurvives (.refl _)
  have hreading : event.isReading = true → (world.act event).2.dir = world.dir := fun hread => by
    obtain ⟨cursors, hact⟩ := act_reading world hread
    rw [hact]
  cases event with
  | load config =>
    have hclosing : Lasting _ world.dir _ world.discard.dir :=
      h.maintaining (rfl : Event.close.persists = true) hroom
    exact hclosing.append ((h.discard hroom).opening rfl hroom config)
  | drop => exact h.maintaining (rfl : Event.close.persists = true) hroom
  | flush => exact h.maintaining rfl hroom
  | compact => exact h.maintaining rfl hroom
  | close => exact h.maintaining rfl hroom
  | upsert entry =>
    refine hnothing ?_
    rw [World.act]
    split
    · rfl
    · rfl
  | crash => exact hnothing rfl
  | block name => exact lasting_change hsurvives fun names hnames => .makeFolder h.unshared hnames
  | unblock name => exact lasting_change hsurvives fun names hnames => .removeFolder h.unshared hnames
  | _ => exact hnothing (hreading rfl)

/-- **An event** passes through a lineage of directories that an opening can go on from. -/
theorem Consistent.passing (h : Consistent world ledger) (event : Event)
    (hroom : ledger.handedOut + world.handsOut event < UInt64.size - 1) :
    Lasting (ledger.handedOut + world.handsOut event + 1) world.dir (world.passes event)
      (world.step event).2.dir := by
  rw [← note_handedOut] at hroom
  have hreleasing := (h.act event hroom).releasing
  rw [note_handedOut] at hroom hreleasing
  exact (h.acting event hroom).append hreleasing

/-! ## The life of a directory -/

/-- A directory that an opening can go on from is all that a process needs. -/
theorem consistent_ofDir {handed : Nat} {segments : List Segment} {dir : Snapshot}
    (h : Survives (handed + 1) segments dir) :
    Consistent (.ofDir dir) ⟨Content.ofSegments segments, [], 0, handed⟩ := by
  obtain ⟨recorded, hrecoverable, hrecorded, htidy⟩ := h
  refine .inr ⟨fun engine hengine => (nomatch hengine), ⟨recorded, segments, hrecoverable, hrecorded,
    fun handle hmem => (nomatch hmem), 0, Nat.le_refl _, Nat.le_refl _, rfl⟩, htidy⟩

/-- **Over a whole life**, whatever has been done, and whatever was cut short: the directory can be gone on
from, and so could be all that it was before. -/
theorem Endures.lasting {history : List Snapshot} {handed : Nat} (h : Endures world history handed)
    (hroom : handed < UInt64.size - 1) :
    (∃ ledger, Consistent world ledger ∧ ledger.handedOut = handed) ∧
      Lasting (handed + 1) .empty history world.dir := by
  -- What a cut leaves is known only by what an opening needs of it, so the ledger is begun anew there.
  induction h with
  | start =>
    refine ⟨⟨.empty, .inr (.start _), rfl⟩, ?_⟩
    obtain ⟨segments, hsurvives⟩ := Consistent.survives (.inr (.start .empty))
    exact .single hsurvives (.refl _)
  | @step world history handed h event ih =>
    obtain ⟨⟨ledger, hconsistent, rfl⟩, hlasting⟩ := ih (Nat.lt_of_le_of_lt (Nat.le_add_right _ _) hroom)
    refine ⟨⟨ledger.note world event, hconsistent.step event ?_, note_handedOut event⟩, ?_⟩
    · rw [note_handedOut]
      exact hroom
    · exact (hlasting.mono (by omega)).append (hconsistent.passing event hroom)
  | @cut world history handed h event first now hfirst hnow ih =>
    obtain ⟨⟨ledger, hconsistent, rfl⟩, hlasting⟩ := ih (Nat.lt_of_le_of_lt (Nat.le_add_right _ _) hroom)
    obtain ⟨later, hpasses⟩ := hfirst
    obtain ⟨earlier, rfl⟩ := List.getLast?_eq_some_iff.1 hnow
    have hpassing := hconsistent.passing event hroom
    rw [← hpasses, List.append_assoc] at hpassing
    have hcut := hpassing.cut
    obtain ⟨segments, hsurvives⟩ := hcut.survives now (by simp)
    exact ⟨⟨_, consistent_ofDir hsurvives, rfl⟩, (hlasting.mono (by omega)).append hcut⟩

theorem Consistent.falling (h : Consistent world ledger) (hengine : world.engine = some engine) :
    Falling engine.live ∧ ∀ segment ∈ engine.live, segment.generation < engine.manager.next := by
  rcases h with ⟨engine', husing⟩ | hidle
  · obtain rfl : engine = engine' := Option.some.inj (hengine.symm.trans husing.present)
    obtain ⟨recorded, hkept, -⟩ := husing.kept
    exact ⟨hkept.committed.falling, fun segment hmem => hkept.generation_lt hmem⟩
  · -- An engine that has closed the directory has let go of its segments.
    obtain ⟨-, -, hlive, -⟩ := hidle.closed engine hengine
    rw [hlive]
    exact ⟨List.Pairwise.nil, fun segment hmem => absurd hmem List.not_mem_nil⟩

/-- **Generations order recency and are never used again.** Over the whole life of a directory that was
empty at the start, whatever failed and whenever a process ended: the segments of an engine have falling
generations, newest first, below the next one; each manifest lists generations below the next one that it
records; and whenever a segment is listed that was not listed just before, its generation is greater than
every generation that was ever listed in the directory before. -/
theorem generations_never_reused {history : List Snapshot} {handed : Nat}
    (h : Endures world history handed) (hroom : handed < UInt64.size - 1) :
    (∀ engine, world.engine = some engine → Falling engine.live ∧
      ∀ segment ∈ engine.live, segment.generation < engine.manager.next) ∧
    (∀ moment ∈ history, ∀ bytes, moment.holding FileName.manifest = .file bytes →
      ∃ manifest, Manifest.decode bytes = .ok manifest ∧
        ∀ info ∈ manifest.segments, info.generation < manifest.next) ∧
    (∀ earlier last now later, history = earlier ++ last :: now :: later → ∀ info ∈ now.listed,
      info ∈ last.listed ∨
        ∀ before ∈ earlier ++ [last], ∀ old ∈ before.listed, old.generation < info.generation) := by
  obtain ⟨⟨ledger, hconsistent, -⟩, hlasting⟩ := h.lasting hroom
  refine ⟨fun engine => hconsistent.falling, fun moment hmem bytes hfile => ?_, ?_⟩
  · obtain ⟨segments, recorded, hrecoverable, -⟩ := hlasting.survives moment hmem
    exact hrecoverable.decodes hfile
  · rintro earlier last now later rfl info hinfo
    -- What was listed before was below the next generation of then, which has not fallen since.
    have hlisted : ∀ before ∈ earlier ++ [last], ∀ old ∈ before.listed, old.generation < before.next := by
      intro before hbefore
      obtain ⟨segments, recorded, hrecoverable, -⟩ := hlasting.cut.survives before hbefore
      exact hrecoverable.listed_lt
    obtain ⟨-, hrest, -⟩ := List.pairwise_append.1 hlasting.ordered
    have hnow : Renews last now := (List.pairwise_cons.1 hrest).1 now List.mem_cons_self
    rcases hnow.listed info hinfo with hold | hnew
    · exact .inl hold
    · refine .inr fun before hbefore old hmem => ?_
      have hlast : Renews before last := hlasting.cut.before before hbefore
      exact UInt64.lt_of_lt_of_le (hlisted before hbefore old hmem)
        (UInt64.le_trans hlast.next_le hnew)

/-- A write that is flushed, deleted and compacted away, and another write. -/
def outlived : List Event :=
  [.load {}, .upsert (.put [1] [7]), .flush, .upsert (.tombstone [1]), .compact, .upsert (.put [2] [8])]

/-- What the process passes through if it ends in the next flush, just before the manifest is renamed. -/
def unfinished : List Snapshot := ((World.empty.run outlived).2.passes .flush).take 9

/-- The directory that it leaves. -/
def abandoned : Snapshot := unfinished.getLastD .empty

/-- The write that a new process flushes. -/
def resumed : List Event := [.load {}, .upsert (.put [3] [9]), .flush]

/-- All that the directory was in the time of both processes. -/
def lifetime : List Snapshot :=
  [.empty] ++ (World.empty.course outlived).1 ++ unfinished ++ ((World.ofDir abandoned).course resumed).1

/-- No segment is left by the compaction, and the one that is not committed is removed. Still the segment
of the new process is of a later generation than the one that was compacted away. -/
theorem generations_never_reused_resumed : ∃ world handed, Endures world lifetime handed ∧
    handed < UInt64.size - 1 ∧
    (lifetime.map fun moment => moment.listed.map SegmentMeta.generation).destutter (· ≠ ·) =
      [[], [1], [], [4]] ∧
    ∀ earlier last now later, lifetime = earlier ++ last :: now :: later → ∀ info ∈ now.listed,
      info ∈ last.listed ∨
        ∀ before ∈ earlier ++ [last], ∀ old ∈ before.listed, old.generation < info.generation := by
  have hleft : unfinished.getLast? = some abandoned := by
    have hsome : unfinished.getLast?.isSome = true := by decide +kernel
    rw [abandoned, List.getLastD_eq_getLast?]
    cases hlast : unfinished.getLast? with
    | none =>
      rw [hlast] at hsome
      cases hsome
    | some now => rfl
  -- The first process runs, is cut short in its last flush, and the second one goes on from there.
  have hlife : Endures ((World.ofDir abandoned).run resumed).2 lifetime _ :=
    ((Endures.start.run outlived).cut .flush (List.take_prefix 9 _) hleft).run resumed
  have hroom : 0 + (World.empty.course outlived).2 + (World.empty.run outlived).2.handsOut .flush +
      ((World.ofDir abandoned).course resumed).2 < UInt64.size - 1 := by
    decide +kernel
  refine ⟨_, _, hlife, hroom, ?_, (generations_never_reused hlife hroom).2.2⟩
  decide +kernel

end World

end LsmTree
