import LsmTree.Proofs.Refinement

/-!
# Opening a directory again

A directory that the store has used is opened with the segments that are committed in it, and nothing
else: no table holds a write yet, and no file is left but the manifest and those of the segments. Opening
fails only if a directory is where the manifest is to be written.

* **`World.Answers`** — lookups and a reading of everything answer the same content;
* **`World.Opened`** — a directory just opened with some segments;
* **`World.load_opened`** — what opening makes of a directory.
-/

namespace LsmTree

open Maintenance (Spares)

namespace World

variable {world : World} {base : Content} {writes : List Entry} {engine : Engine}
  {segments : List Segment}

/-- Each lookup answers what the content has, and reading everything yields that in ascending order. -/
structure Answers (content : Content) (world : World) : Prop where
  lookup : ∀ key, (world.step (.lookup key)).1 = .ok (.value (content key))
  scan : ∃ entries, (world.step (.range .all)).1 = .ok (.entries entries) ∧ Ascending entries ∧
    ∀ entry, entry ∈ entries ↔ ∃ value, entry = .put entry.key value ∧ content entry.key = some value

/-- The entries of a range are the live ones that the content has within the bounds, in ascending order. -/
structure Lists (content : Content) (bounds : KeyRange) (entries : List Entry) : Prop where
  ascending : Ascending entries
  mem_iff : ∀ entry, entry ∈ entries ↔ ∃ value, entry = .put entry.key value ∧
    content entry.key = some value ∧ bounds.contains entry.key = true

theorem Lists.unique {content : Content} {bounds : KeyRange} {entries other : List Entry}
    (h : Lists content bounds entries) (h' : Lists content bounds other) : entries = other :=
  ascending_ext h.ascending h'.ascending fun entry => (h.mem_iff entry).trans (h'.mem_iff entry).symm

/-- What the layers of an engine are merged to is what its content has. -/
theorem lists_merged {memory : Memory} (hasc : ∀ segment ∈ engine.live, Ascending segment.entries)
    (bounds : KeyRange) : Lists (engine.content memory) bounds
      (merged memory engine.tables engine.segments bounds) := by
  have hhandles : ∀ handle ∈ engine.segments, Ascending handle.segment.entries := fun handle hmem =>
    hasc _ (List.mem_map_of_mem hmem)
  refine ⟨merged_ascending hhandles, fun entry => ?_⟩
  rw [mem_merged_iff_value hhandles, Engine.content, Content.overlay_ofSegments]
  rfl

theorem range_eq_merged (hengine : world.engine = some engine) (hopen : engine.closed = false)
    (bounds : KeyRange) : (world.step (.range bounds)).1 =
      .ok (.entries (merged world.memory engine.tables engine.segments bounds)) := by
  show (world.ask fun engine => Answer.entries <$> engine.entries world.memory bounds) = _
  rw [ask, hengine]
  dsimp only
  rw [Engine.entries, Engine.range, hopen]
  rfl

/-- **A range answers** with the live entries in it. -/
theorem Serving.range (h : Serving base writes world) (bounds : KeyRange) :
    ∃ entries, (world.step (.range bounds)).1 = .ok (.entries entries) ∧
      Lists (Content.after base writes) bounds entries := by
  obtain ⟨engine, settled, hengine, hopen, hlays⟩ := h.serves
  refine ⟨merged world.memory engine.tables engine.segments bounds, ?_,
    hlays.content_eq ▸ lists_merged hlays.sound.ascending bounds⟩
  exact range_eq_merged hengine hopen bounds

/-- An engine in service answers what the writes make of what was there. -/
theorem Serving.answers (h : Serving base writes world) :
    Answers (Content.after base writes) world := by
  obtain ⟨entries, hentries, hlists⟩ := h.range .all
  refine ⟨h.lookup, entries, hentries, hlists.ascending, fun entry => (hlists.mem_iff entry).trans ?_⟩
  exact exists_congr fun value => and_congr_right fun _ => and_iff_left rfl

/-! ## Just opened -/

/-- A directory just opened with the given segments. -/
structure Opened (segments : List Segment) (world : World) (engine : Engine) : Prop where
  present : world.engine = some engine
  opened : engine.closed = false
  live : engine.live = segments
  queue : engine.queue = []
  empty : (world.memory.table engine.active).isEmpty = true
  lays : Lays (Content.ofSegments segments) [] 0 world.memory engine
  kept : Kept engine.manager.next engine.manager.next segments world.dir
  clean : Clean segments world.dir

theorem Opened.serving (h : Opened segments world engine) :
    Serving (Content.ofSegments segments) [] world :=
  ⟨h.kept.unshared, engine, 0, h.present, h.opened, h.lays⟩

/-- **Opening a directory** that the store has used finds the segments that are committed; it fails only
if a directory is where the manifest is to be written, and then leaves what is committed. -/
theorem load_opened {recorded : UInt64} {limit : Nat} (config : Config)
    (h : Recoverable recorded segments world.dir) (htidy : Tidy limit world.dir)
    (hrecorded : recorded.toNat ≤ limit) (hpos : 0 < limit) (hlimit : limit < UInt64.size) :
    (∃ answer opened engine, world.load config = (.ok answer, opened) ∧
      Opened segments opened engine ∧ recorded ≤ engine.manager.next ∧
      engine.manager.next.toNat ≤ limit ∧ opened.replaced = world.replaced) ∨
    (∃ fault dir, world.load config = (.error fault, { world with dir }) ∧
      Recoverable recorded segments dir ∧ Tidy limit dir ∧
      (world.dir.holding (FileName.temporary FileName.manifest) = .folder ∨
        world.dir.holding FileName.manifest = .folder)) := by
  have hrun : Runs _ (Disk.ofSnapshot world.dir) _ _ :=
    Manager.runs_recover config h htidy hrecorded hpos hlimit
  obtain ⟨hpost, -⟩ := hrun.apply (Disk.plain_ofSnapshot world.dir)
  rw [load]
  split
  · next error disk hrun =>
    rw [hrun] at hpost
    exact .inr ⟨_, _, rfl, hpost⟩
  · next manager opened disk hrun =>
    rw [hrun] at hpost
    obtain ⟨rfl, hnext, hle, hkept, hclean⟩ := hpost
    have hlive : (Engine.ofSegments world.memory config manager opened).1.live = opened :=
      Memory.segment_adoptAll world.memory config.dataDir opened
    have hasc : ∀ segment ∈ opened, Ascending segment.entries := fun segment hmem =>
      (hkept.committed.stored segment hmem).ascending
    exact .inl ⟨_, _, _, rfl, ⟨rfl, rfl, hlive, rfl, Memory.isEmpty_newTable _,
      Engine.lays_ofSegments world.memory config manager hasc, hkept, hclean⟩, hle, hnext, rfl⟩

/-- **Taking files of replaced segments away** leaves it as it is. -/
theorem Opened.releaseFiles {recorded : UInt64} (h : Opened segments world engine)
    (hspares : Spares world.replaced recorded segments) (hle : recorded ≤ engine.manager.next) :
    Opened segments world.releaseFiles engine := by
  obtain ⟨released, hreleased, -, hremoved⟩ := releaseFiles_removed h.kept.unshared
  refine { h with kept := ?_, clean := ?_ }
  · refine Spares.released (fun handle hmem => ?_) h.kept hremoved.within
    obtain ⟨hlt, hne⟩ := hspares handle (hreleased hmem)
    exact ⟨UInt64.lt_of_lt_of_le hlt hle, hne⟩
  · exact fun name bytes hfile => h.clean name bytes (hremoved.file_iff.1 hfile).1

end World

end LsmTree
