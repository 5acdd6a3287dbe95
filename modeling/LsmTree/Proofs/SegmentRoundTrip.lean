import LsmTree.Proofs.AllOrNothing
import LsmTree.Proofs.LayoutDecoding
import LsmTree.Proofs.LengthenedPaths

/-!
# Writing a segment and opening it

A builder is offered entries in any order and accepts those whose keys ascend; what it puts in place
opens as a segment of just these entries. The other way round, files that open are the layout of their
entries, so a builder that is given the entries writes the same files again:

* **`Builder.Clear`** — nothing hinders a builder: its names are free and short enough, and it can sync;
* **`Builder.ends_offer`** — entries offered one after the other, accepted or refused, and
  **`Builder.Clear.run_ofOffers`** — a builder that is not hindered, from first to last;
* **`Segment.run_load`** — a segment opened from its files, and **`Segment.onDisk_load`** — at a path;
* **`Segment.ofFiles_of_ascending`** — files of ascending entries open;
* **`Segment.opens_as_written`** — what is written at a path opens there, and
  **`Segment.free_names_not_enough`** — free names alone do not let it be written;
* **`Segment.opens_iff_layout`** — the files that open, and their entries as the only ones with this
  layout; **`Segment.opens_at_path_iff_layout`** — the same at a path;
* **`Stored.holding_eq`** — so the files of a stored segment are the layout of its entries.
-/

namespace LsmTree

namespace Builder

/-! ## Offering entries -/

/-- Offers entries one after the other, and returns the builder with those it has accepted. A refused
entry leaves the builder as it was. -/
def offer (builder : Builder) : List Entry → StateM Disk (Builder × List Entry)
  | [] => return (builder, [])
  | entry :: rest => do
    match ← (builder.add entry).run with
    | .ok next =>
      let (last, accepted) ← next.offer rest
      return (last, entry :: accepted)
    | .error _ => builder.offer rest

/-- Starts a builder and offers it entries. -/
def ofOffers (generation : UInt64) (sync : Bool) (offered : List Entry) :
    DiskM (Builder × List Entry) := do
  let builder ← start generation sync
  builder.offer offered

variable {builder : Builder} {disk started : Disk} {dir : Directory} {generation : UInt64} {sync : Bool}
  {entries : List Entry}

theorem add_of_accepted {entry : Entry} (h : builder.refusal? entry = none) (disk : Disk) :
    (builder.add entry).run.run disk =
      (.ok ((builder.push entry).run disk).1, ((builder.push entry).run disk).2) := by
  rw [add, h]
  rfl

theorem add_of_refused {entry : Entry} {error : Error} (h : builder.refusal? entry = some error)
    (disk : Disk) : (builder.add entry).run.run disk = (.error error, disk) := by
  rw [add, h]
  rfl

/-- **An entry is accepted exactly if its key comes after all keys accepted before**, and a refused one
changes nothing. -/
theorem Tracks.add_iff {s : Snapshot} (h : builder.Tracks s entries) (hasc : Ascending entries)
    (entry : Entry) (disk : Disk) :
    ((∃ next after, (builder.add entry).run.run disk = (.ok next, after)) ↔
      ∀ earlier ∈ entries, earlier.key < entry.key) ∧
    ∀ error after, (builder.add entry).run.run disk = (.error error, after) → after = disk := by
  rcases h.refusal?_eq hasc entry with ⟨hafter, hnone⟩ | ⟨last, hlast, hnot, hrefused⟩
  · rw [add_of_accepted hnone]
    refine ⟨⟨fun _ => hafter, fun _ => ⟨_, _, rfl⟩⟩, ?_⟩
    rintro error after ⟨⟩
  · rw [add_of_refused hrefused]
    refine ⟨⟨?_, fun hafter => absurd (hafter last hlast) hnot⟩, ?_⟩
    · rintro ⟨next, after, ⟨⟩⟩
    · rintro error after ⟨⟩
      rfl

/-- **A builder that is offered entries** takes those that come after all taken before; if all of them
ascend, it takes them all. -/
theorem ends_offer (h : AtWork disk dir generation sync builder entries started) (offered : List Entry) :
    Ends (builder.offer offered) started fun result after =>
      AtWork disk dir generation sync result.1 (entries ++ result.2) after ∧
      (Ascending (entries ++ offered) → result.2 = offered) := by
  induction offered generalizing builder entries started with
  | nil =>
    refine Ends.pure _ ⟨?_, fun _ => rfl⟩
    rw [List.append_nil]
    exact h
  | cons entry rest ih =>
    -- The builder goes on with the entry taken, or as it was.
    rcases h.tracks.refusal?_eq h.ascending entry with ⟨hafter, hnone⟩ | ⟨last, hlast, hnot, hrefused⟩
    · have haccepts : (builder.offer (entry :: rest)).run started =
          (builder.push entry >>= fun next =>
            (fun result => (result.1, entry :: result.2)) <$> next.offer rest).run started := by
        simp only [offer, add, hnone]
        rfl
      refine Ends.of_run_eq haccepts (Ends.bind (h.ends_push hafter) ?_)
      rintro next after hwork
      refine Ends.map ((ih hwork).mono ?_)
      rintro ⟨last, accepted⟩ done ⟨hwork', hall⟩
      simp only [List.append_assoc, List.singleton_append] at hwork' hall
      exact ⟨hwork', fun hoffered => by rw [hall hoffered]⟩
    · have hrefuses : (builder.offer (entry :: rest)).run started = (builder.offer rest).run started := by
        simp only [offer, add, hrefused]
        rfl
      refine Ends.of_run_eq hrefuses ((ih h).mono ?_)
      rintro ⟨last', accepted⟩ done ⟨hwork, -⟩
      -- An ascending list would not have had the entry refused.
      refine ⟨hwork, fun hoffered => absurd ?_ hnot⟩
      exact (List.pairwise_append.1 hoffered).2.2 last hlast entry (by simp)

/-! ## A builder that nothing hinders -/

/-- The four names of a generation are free and short enough for the path of the directory, and the directory
can be synced if it is to be. -/
structure Clear (disk : Disk) (generation : UInt64) (sync : Bool) : Prop where
  reachable : ∃ dir, disk.folder = .ok dir
  free : ∀ name ∈ FileName.ofGeneration generation, disk.snapshot.holding name = .nothing
  fits : ∀ name ∈ FileName.ofGeneration generation, disk.fits name = true
  syncs : sync = true → disk.syncFault? = none

namespace Clear

theorem ofSnapshot {dir : Snapshot} (sync : Bool)
    (hfree : ∀ name ∈ FileName.ofGeneration generation, dir.holding name = .nothing) :
    Clear (.ofSnapshot dir) generation sync :=
  ⟨⟨_, rfl⟩, hfree, fun name _ => (Disk.plain_ofSnapshot dir).fits name,
    fun _ => (Disk.plain_ofSnapshot dir).syncFault?_eq⟩

theorem get?_eq_none (h : Clear disk generation sync) (hfolder : disk.folder = .ok dir) {name : String}
    (hmem : name ∈ FileName.ofGeneration generation) : dir.get? name = none := by
  rw [← Disk.names_of_folder hfolder]
  exact Snapshot.holding_eq_nothing.1 (h.free name hmem)

theorem admits (h : Clear disk generation sync) (hfolder : disk.folder = .ok dir) :
    Admits disk generation dir :=
  ⟨hfolder, fun half => h.get?_eq_none hfolder (FileName.mem_ofGeneration.2 ⟨half, .inr rfl⟩),
    fun half => h.fits _ (FileName.mem_ofGeneration.2 ⟨half, .inr rfl⟩)⟩

theorem final_free (h : Clear disk generation sync) (hfolder : disk.folder = .ok dir) (half : Half) :
    dir.get? (FileName.segment half generation) = none :=
  h.get?_eq_none hfolder (FileName.mem_ofGeneration.2 ⟨half, .inl rfl⟩)

/-- The builder is started. -/
theorem ends_start (h : Clear disk generation sync) (hfolder : disk.folder = .ok dir) :
    Ends (Builder.start generation sync).run disk fun result after =>
      ∃ builder, result = .ok builder ∧ AtWork disk dir generation sync builder [] after := by
  have htemporary : ∀ half, disk.snapshot.names.file? (temporary half generation) = none := by
    intro half
    rw [Disk.names_of_folder hfolder, Directory.file?, (h.admits hfolder).free half]
  refine (Builder.ends_start generation sync htemporary).mono ?_
  rintro (error | builder) after hstarted
  · exact absurd (h.admits hfolder) (hstarted.2 dir)
  · obtain ⟨dir', hadmits, hwork⟩ := hstarted
    cases hfolder.symm.trans hadmits.folder
    exact ⟨builder, rfl, hwork⟩

/-- The builder is finished. -/
theorem ends_finish (h : Clear disk generation sync) (hfolder : disk.folder = .ok dir)
    (hwork : AtWork disk dir generation sync builder entries started) :
    Ends builder.finish.run started fun result after => ∃ info, result = .ok info ∧
      (entries = [] → info = none) ∧
      (entries ≠ [] → info = some (Segment.ofEntries generation entries).info ∧
        disk.Gained generation entries after) := by
  have hfinal : ∀ half, dir.file? (FileName.segment half generation) = none := fun half => by
    rw [Directory.file?, h.final_free hfolder]
  refine (Builder.ends_finish (h.admits hfolder) hfinal hwork).mono ?_
  rintro (error | _ | info) after hfinished
  · rcases hfinished with ⟨⟨half, _, hobstructed⟩, -⟩ | ⟨hsync, -, ⟨cause, hfault, -⟩, -⟩
    · rw [h.final_free hfolder] at hobstructed
      cases hobstructed
    · rw [h.syncs hsync] at hfault
      cases hfault
  · exact ⟨none, rfl, fun _ => rfl, fun hsome => absurd hfinished.1 hsome⟩
  · obtain ⟨hsome, -, rfl, hgained⟩ := hfinished
    exact ⟨_, rfl, fun hnone => absurd hnone hsome, fun _ => ⟨rfl, hgained⟩⟩

/-- **Offering entries and finishing**, where nothing hinders the builder. -/
theorem run_ofOffers (h : Clear disk generation sync) (offered : List Entry) :
    ∃ builder accepted reached,
      (ofOffers generation sync offered).run.run disk = (.ok (builder, accepted), reached) ∧
      builder.Tracks reached.snapshot accepted ∧ Ascending accepted ∧
      (Ascending offered → accepted = offered) ∧
      ∃ result after, builder.finish.run.run reached = (.ok result, after) ∧
        (accepted = [] → result = none) ∧
        (accepted ≠ [] → result = some (Segment.ofEntries generation accepted).info ∧
          disk.Gained generation accepted after) := by
  obtain ⟨dir, hfolder⟩ := h.reachable
  have hoffers : Ends (ofOffers generation sync offered).run disk fun result after =>
      ∃ builder accepted, result = .ok (builder, accepted) ∧
        AtWork disk dir generation sync builder accepted after ∧
        (Ascending offered → accepted = offered) := by
    refine Ends.andThen (h.ends_start hfolder) ?_ ?_
    · rintro _ started ⟨builder, ⟨⟩, hwork⟩
      refine Ends.lift ((Builder.ends_offer hwork offered).mono ?_)
      rintro ⟨last, accepted⟩ after ⟨hwork', hall⟩
      exact ⟨last, accepted, rfl, hwork', hall⟩
    · rintro error after ⟨_, ⟨⟩, -⟩
  obtain ⟨builder, accepted, hresult, hwork, hall⟩ := hoffers
  obtain ⟨info, hfinished, hnone, hsome⟩ := h.ends_finish hfolder hwork
  exact ⟨builder, accepted, _, Prod.ext hresult rfl, hwork.tracks, hwork.ascending, hall, info, _,
    Prod.ext hfinished rfl, hnone, hsome⟩

end Clear

end Builder

/-! ## Opening what was written -/

/-- A file is read if its name can be looked up. -/
theorem Disk.run_read_of_file {disk : Disk} {name : String} {bytes : Bytes} (hfits : disk.fits name = true)
    (h : disk.snapshot.holding name = .file bytes) : (Disk.read name).run.run disk = (.ok bytes, disk) := by
  obtain ⟨number, hget, rfl⟩ := Snapshot.holding_eq_file.1 h
  cases hfolder : disk.folder with
  | error cause =>
    rw [Disk.snapshot, hfolder] at hget
    cases hget
  | ok dir =>
    rw [Disk.names_of_folder hfolder] at hget
    have hreach : disk.reach [name] = .ok dir := Disk.reach_eq_ok.2 ⟨by simpa using hfits, hfolder⟩
    simp only [Disk.read, ExceptT.run, ExceptT.mk, StateT.run, hreach, hget]
    rfl

namespace Segment

variable {generation : UInt64} {entries : List Entry} {data index : Bytes} {disk : Disk}

/-- The two files of a generation are in the directory. -/
structure Files (dir : Snapshot) (generation : UInt64) (data index : Bytes) : Prop where
  data : dir.holding (FileName.segment .data generation) = .file data
  index : dir.holding (FileName.segment .index generation) = .file index

theorem Files.unique {dir : Snapshot} {other other' : Bytes} (h : Files dir generation data index)
    (hother : Files dir generation other other') : data = other ∧ index = other' :=
  ⟨Holding.file.inj (h.data.symm.trans hother.data), Holding.file.inj (h.index.symm.trans hother.index)⟩

/-- **A segment is opened** from its two files, if their names can be looked up. -/
theorem run_load (hfits : ∀ half, disk.fits (FileName.segment half generation) = true)
    (h : Files disk.snapshot generation data index) (recorded : Option SegmentMeta) (verified : Bool) :
    (load generation recorded verified).run.run disk =
      ((ofFiles generation recorded verified data index).mapError (.corrupt generation), disk) := by
  have hread : ∀ {half bytes}, disk.snapshot.holding (FileName.segment half generation) = .file bytes →
      Ends (readFile (FileName.segment half generation)).run disk fun result after =>
        after = disk ∧ result = .ok bytes := by
    intro half bytes hholding
    unfold Ends
    rw [readFile, ExceptT.run_tryCatch, StateT.run_bind, Disk.run_read_of_file (hfits half) hholding]
    exact ⟨rfl, rfl⟩
  have hload : Ends (load generation recorded verified).run disk fun result after =>
      result = (ofFiles generation recorded verified data index).mapError (.corrupt generation) ∧
        after = disk := by
    refine Ends.andThen (hread h.data) ?_ ?_
    · rintro _ _ ⟨rfl, ⟨⟩⟩
      refine Ends.andThen (hread h.index) ?_ ?_
      · rintro _ _ ⟨rfl, ⟨⟩⟩
        cases ofFiles generation recorded verified data index <;> exact ⟨rfl, rfl⟩
      · rintro _ _ ⟨-, ⟨⟩⟩
    · rintro _ _ ⟨-, ⟨⟩⟩
  exact Prod.ext hload.1 hload.2

theorem mapError_eq_ok {ε ε' α : Type} {result : Except ε α} {f : ε → ε'} {a : α} :
    result.mapError f = .ok a ↔ result = .ok a := by
  cases result <;> simp [Except.mapError]

theorem load_eq_ok (hfits : ∀ half, disk.fits (FileName.segment half generation) = true)
    (h : Files disk.snapshot generation data index) {recorded : Option SegmentMeta} {verified : Bool}
    {segment : Segment} {after : Disk} :
    (load generation recorded verified).run.run disk = (.ok segment, after) ↔
      ofFiles generation recorded verified data index = .ok segment ∧ after = disk := by
  rw [run_load hfits h, Prod.mk.injEq, mapError_eq_ok, eq_comm (a := disk)]

/-- **A segment is opened at a path** that is short enough for the names of its files. -/
theorem onDisk_load {volume : Volume} {path : String}
    (hfits : ∀ half, (volume.disk path).fits (FileName.segment half generation) = true)
    (h : Files (volume.disk path).snapshot generation data index) (recorded : Option SegmentMeta)
    (verified : Bool) :
    (volume.onDisk path (load generation recorded verified).run).1 =
      (ofFiles generation recorded verified data index).mapError (.corrupt generation) := by
  show ((load generation recorded verified).run.run (volume.disk path)).1 = _
  rw [run_load hfits h]

theorem onDisk_load_eq_ok {volume : Volume} {path : String} {recorded : Option SegmentMeta}
    {verified : Bool} {segment : Segment}
    (hfits : ∀ half, (volume.disk path).fits (FileName.segment half generation) = true)
    (h : Files (volume.disk path).snapshot generation data index) :
    (volume.onDisk path (load generation recorded verified).run).1 = .ok segment ↔
      ofFiles generation recorded verified data index = .ok segment := by
  rw [onDisk_load hfits h, mapError_eq_ok]

end Segment

namespace Disk.Gained

variable {generation : UInt64} {entries : List Entry} {disk after : Disk}

/-- What was gained are the files of a segment. -/
theorem files (h : disk.Gained generation entries after) :
    Segment.Files after.snapshot generation (Layout.data entries) (Layout.index entries) := by
  obtain ⟨dir, -, -, hafter⟩ := h.folder
  have hget : ∀ {name number bytes}, after.contents.get number = bytes →
      after.snapshot.names.get? name = some (.file number) → after.snapshot.holding name = .file bytes := by
    rintro name number bytes rfl hget
    exact Snapshot.holding_of_get?_file hget
  refine ⟨hget h.data ?_, hget h.index ?_⟩
  · rw [Disk.names_of_folder hafter]
    simp [Directory.get?]
  · rw [Disk.names_of_folder hafter]
    simp [Directory.get?]

/-- They are found at the path of the directory. -/
theorem files_update {volume : Volume} {path : String}
    (h : (volume.disk path).Gained generation entries after) :
    Segment.Files ((volume.update path after).disk path).snapshot generation (Layout.data entries)
      (Layout.index entries) := by
  obtain ⟨dir, hfolder, hfree, hafter⟩ := h.folder
  have hspans : dir.Spans ⟨(FileName.segment .index generation, .file ((volume.disk path).contents.size + 1)) ::
      (FileName.segment .data generation, .file (volume.disk path).contents.size) :: dir.entries⟩ := by
    refine .of_enter fun name inner henter => Directory.enter_eq_ok.2 ?_
    have hget := Directory.enter_eq_ok.1 henter
    have hother : ∀ half, FileName.segment half generation ≠ name := by
      rintro half rfl
      rw [hfree half] at hget
      cases hget
    simpa [Directory.get?, hother] using hget
  have hsame : ((volume.update path after).disk path).snapshot = after.snapshot := by
    rw [Volume.disk_update hfolder hafter hspans, Disk.snapshot, Disk.snapshot, hafter]
  rw [hsame]
  exact h.files

end Disk.Gained

namespace Segment

variable {generation : UInt64} {entries : List Entry} {data index : Bytes}

/-- **The files of ascending entries open**, with their record and without, verified or not, as a
segment of these entries. -/
theorem ofFiles_of_ascending (hasc : Ascending entries)
    (hlength : (Layout.data entries).length < Layout.offsetSize) {recorded : Option SegmentMeta}
    (hrecorded : recorded = none ∨ recorded = some (ofEntries generation entries).info)
    (verified : Bool) :
    ∃ segment, ofFiles generation recorded verified (Layout.data entries) (Layout.index entries) =
        .ok segment ∧ segment.entries = entries ∧
      (recorded = some (ofEntries generation entries).info →
        segment.info = (ofEntries generation entries).info) := by
  rcases hrecorded with rfl | rfl
  · refine ⟨unrecorded generation verified entries, ?_, entries_unrecorded generation hlength verified,
      by simp⟩
    exact (ofFiles_iff hlength verified).2 ⟨entries, rfl, rfl, fun _ => hasc, rfl⟩
  · exact ⟨ofEntries generation entries, ofFiles_recorded hasc hlength verified,
      entries_ofEntries hlength, fun _ => rfl⟩

/-! ## Writing and opening at a path -/

/-- **Writing a segment and opening it.** If nothing hinders a builder at a path and it is offered entries in
any order, it accepts an entry exactly if its key comes after the keys of all those accepted before, and a
refused entry changes nothing. If none was accepted, finishing it makes no segment. Otherwise the segment
opens at the path, with the record that the builder returned and without, verified or not, and has exactly
the entries accepted, in their order. -/
theorem opens_as_written {volume : Volume} {path : String} {generation : UInt64} {sync : Bool}
    (hclear : Builder.Clear (volume.disk path) generation sync) (offered : List Entry) :
    ∃ builder accepted reached,
      (Builder.ofOffers generation sync offered).run.run (volume.disk path) =
        (.ok (builder, accepted), reached) ∧
      (∀ entry, (∃ next after, (builder.add entry).run.run reached = (.ok next, after)) ↔
        ∀ earlier ∈ accepted, earlier.key < entry.key) ∧
      (∀ entry error after, (builder.add entry).run.run reached = (.error error, after) →
        after = reached) ∧
      ((Layout.data accepted).length < Layout.offsetSize → ∃ result after,
        builder.finish.run.run reached = (.ok result, after) ∧
        (accepted = [] → result = none) ∧
        (accepted ≠ [] → ∃ info, result = some info ∧ ∀ verified recorded,
          recorded = none ∨ recorded = some info → ∃ segment,
            ((volume.update path after).onDisk path (load generation recorded verified).run).1 =
              .ok segment ∧
            segment.rangeEntries .all = accepted ∧
            (∀ entry ∈ accepted, segment.find? entry.key = some entry) ∧
            (∀ key, (∀ entry ∈ accepted, entry.key ≠ key) → segment.find? key = none) ∧
            (recorded = some info → segment.info = info))) := by
  obtain ⟨builder, accepted, reached, hrun, htracks, hasc, -, result, after, hfinish, hnone, hsome⟩ :=
    hclear.run_ofOffers offered
  refine ⟨builder, accepted, reached, hrun, fun entry => (htracks.add_iff hasc entry reached).1,
    fun entry => (htracks.add_iff hasc entry reached).2, fun hlength => ?_⟩
  refine ⟨result, after, hfinish, hnone, fun hentries => ?_⟩
  obtain ⟨rfl, hgained⟩ := hsome hentries
  refine ⟨_, rfl, fun verified recorded hrecorded => ?_⟩
  obtain ⟨segment, hopen, hopened, hrecord⟩ := ofFiles_of_ascending hasc hlength hrecorded verified
  have hascending : Ascending segment.entries := hopened.symm ▸ hasc
  -- The room for names at the path is what it was.
  have hfits : ∀ half, ((volume.update path after).disk path).fits (FileName.segment half generation) =
      true := fun half => hclear.fits _ (FileName.mem_ofGeneration.2 ⟨half, .inl rfl⟩)
  refine ⟨segment, (onDisk_load_eq_ok hfits hgained.files_update).2 hopen, ?_, ?_, ?_, hrecord⟩
  · rw [rangeEntries_all, hopened]
  · intro entry hmem
    rw [find?_eq_lookup hascending, hopened]
    exact (lookup_eq_some hasc).2 ⟨hmem, rfl⟩
  · intro key hother
    rw [find?_eq_lookup hascending, hopened]
    exact lookup_eq_none.2 hother

/-- Entries offered out of order: the empty key, a tombstone, a key that comes too late, one that comes
twice, and an empty value. -/
def jumbled : List Entry :=
  [.put [] [7], .tombstone [1], .put [0] [8], .put [1] [9], .put [2] []]

/-- A volume with a directory that has a file and a directory of its own. -/
def shelf : Volume where
  root := ⟨[("db", .folder [("notes", .file 0), ("old", .folder [])])]⟩
  contents := ⟨[[104, 105]]⟩

theorem opens_as_written_jumbled :
    Builder.Clear (shelf.disk "db/") 3 true ∧
    ∃ builder reached,
      (Builder.ofOffers 3 true jumbled).run.run (shelf.disk "db/") =
        (.ok (builder, [.put [] [7], .tombstone [1], .put [2] []]), reached) ∧
      ∃ info after, builder.finish.run.run reached = (.ok (some info), after) ∧
        ∀ verified recorded, recorded = none ∨ recorded = some info → ∃ segment,
          ((shelf.update "db/" after).onDisk "db/" (load 3 recorded verified).run).1 = .ok segment ∧
          segment.rangeEntries .all = [.put [] [7], .tombstone [1], .put [2] []] := by
  have hreachable : (shelf.disk "db/").folder = .ok ⟨[("notes", .file 0), ("old", .folder [])]⟩ := by
    rfl
  have hclear : Builder.Clear (shelf.disk "db/") 3 true :=
    ⟨⟨_, hreachable⟩, by decide +kernel, by decide +kernel, fun _ => by decide +kernel⟩
  have haccepted : ((Builder.ofOffers 3 true jumbled).run.run (shelf.disk "db/")).1.map Prod.snd =
      .ok [.put [] [7], .tombstone [1], .put [2] []] := by
    decide +kernel
  obtain ⟨builder, accepted, reached, hrun, -, -, hfinish⟩ := opens_as_written hclear jumbled
  rw [hrun] at haccepted
  obtain rfl : accepted = _ := Except.ok.inj haccepted
  obtain ⟨result, after, hfinished, -, hopens⟩ := hfinish (by decide)
  obtain ⟨info, rfl, hload⟩ := hopens (by simp)
  refine ⟨hclear, builder, reached, hrun, info, after, hfinished, ?_⟩
  intro verified recorded hrecorded
  obtain ⟨segment, hopen, hentries, -⟩ := hload verified recorded hrecorded
  exact ⟨segment, hopen, hentries⟩

/-- **Free names are not enough.** The names of a generation may be free, and yet a builder cannot be started,
since its path leaves too little room for them, or takes an entry and cannot be finished, since the empty path
names no directory to sync. -/
theorem free_names_not_enough :
    ((∀ name ∈ FileName.ofGeneration 1,
        (shelf.disk (Path.lengthened "db" 2036)).snapshot.holding name = .nothing) ∧
      ¬ ∃ builder after,
        (Builder.start 1 false).run.run (shelf.disk (Path.lengthened "db" 2036)) = (.ok builder, after)) ∧
    ((∀ name ∈ FileName.ofGeneration 1, (shelf.disk "").snapshot.holding name = .nothing) ∧
      ∃ builder reached,
        (Builder.ofOffers 1 true [.put [97] [49]]).run.run (shelf.disk "") =
          (.ok (builder, [.put [97] [49]]), reached) ∧
        ¬ ∃ result after, builder.finish.run.run reached = (.ok result, after)) := by
  have hfolder : shelf.folder "db" = .ok ⟨[("notes", .file 0), ("old", .folder [])]⟩ := rfl
  have hshort : shelf.disk (Path.lengthened "db" 2036) =
      ⟨.ok ⟨[("notes", .file 0), ("old", .folder [])]⟩, shelf.contents, some 20, none, none, []⟩ :=
    Volume.disk_lengthened hfolder (by decide) (by decide)
  rw [hshort]
  refine ⟨⟨by decide +kernel, ?_⟩, by decide +kernel, ?_⟩
  · rintro ⟨builder, after, hstart⟩
    have herror : ((Builder.start 1 false).run.run ⟨.ok ⟨[("notes", .file 0), ("old", .folder [])]⟩,
        shelf.contents, some 20, none, none, []⟩).1.isOk = false := by decide +kernel
    rw [hstart] at herror
    cases herror
  · have haccepted : ((Builder.ofOffers 1 true [.put [97] [49]]).run.run (shelf.disk "")).1.map Prod.snd =
        .ok [.put [97] [49]] := by decide +kernel
    have hfails : ((do
        let (builder, _) ← Builder.ofOffers 1 true [.put [97] [49]]
        builder.finish).run.run (shelf.disk "")).1.isOk = false := by decide +kernel
    rcases hrun : (Builder.ofOffers 1 true [.put [97] [49]]).run.run (shelf.disk "") with
      ⟨error | ⟨builder, accepted⟩, reached⟩
    · rw [hrun] at haccepted
      cases haccepted
    · rw [hrun] at haccepted
      obtain rfl : accepted = _ := Except.ok.inj haccepted
      refine ⟨builder, reached, rfl, ?_⟩
      rintro ⟨result, after, hfinish⟩
      rw [ExceptT.run_bind, StateT.run_bind, hrun] at hfails
      replace hfails : (builder.finish.run.run reached).1.isOk = false := hfails
      rw [hfinish] at hfails
      cases hfails

/-! ## Writing what was opened -/

/-- Two files are accepted exactly if they are the layout of some entries, which ascend if that is
verified. -/
theorem accepts_iff (hlength : data.length < Layout.offsetSize) (verified : Bool) :
    (∃ segment, ofFiles generation none verified data index = .ok segment) ↔
      ∃ entries, Layout.data entries = data ∧ Layout.index entries = index ∧
        (verified = true → Ascending entries) := by
  constructor
  · rintro ⟨segment, hopen⟩
    obtain ⟨entries, hdata, hindex, hasc, -⟩ := (ofFiles_iff hlength verified).1 hopen
    exact ⟨entries, hdata, hindex, hasc⟩
  · rintro ⟨entries, hdata, hindex, hasc⟩
    exact ⟨_, (ofFiles_iff hlength verified).2 ⟨entries, hdata, hindex, hasc, rfl⟩⟩

/-- The files of a segment are the layout of its entries and of no others. -/
theorem layout_iff (hlength : data.length < Layout.offsetSize) {verified : Bool} {segment : Segment}
    (h : ofFiles generation none verified data index = .ok segment) :
    (∀ entries, Layout.data entries = data ∧ Layout.index entries = index ↔
      entries = segment.rangeEntries .all) ∧
    (segment.rangeEntries .all = [] ↔ data = [] ∧ index = List.replicate 8 0) ∧
    (verified = true → Ascending (segment.rangeEntries .all)) := by
  obtain ⟨entries, rfl, rfl, hasc, rfl⟩ := (ofFiles_iff hlength verified).1 h
  have hentries : (unrecorded generation verified entries).rangeEntries .all = entries := by
    rw [rangeEntries_all, entries_unrecorded generation hlength]
  have hunique : ∀ other, Layout.data other = Layout.data entries ∧
      Layout.index other = Layout.index entries ↔ other = entries := by
    refine fun other => ⟨fun hother => Layout.eq_of_files hlength hother.1 hother.2, ?_⟩
    rintro rfl
    exact ⟨rfl, rfl⟩
  rw [hentries]
  -- The entries are known from the files; the case of none is the files of the empty list.
  refine ⟨hunique, ⟨?_, ?_⟩, hasc⟩
  · rintro rfl
    exact ⟨rfl, rfl⟩
  · rintro ⟨hnone, hzeros⟩
    exact ((hunique []).1 ⟨hnone.symm, hzeros.symm⟩).symm

/-- **A verified segment is written again** by a builder that is offered its entries and that nothing
hinders. -/
theorem written_again (hlength : data.length < Layout.offsetSize) {segment : Segment}
    (h : ofFiles generation none true data index = .ok segment) (hsome : segment.rangeEntries .all ≠ [])
    {disk : Disk} {other : UInt64} {sync : Bool} (hclear : Builder.Clear disk other sync) :
    ∃ builder reached info after,
      (Builder.ofOffers other sync (segment.rangeEntries .all)).run.run disk =
        (.ok (builder, segment.rangeEntries .all), reached) ∧
      builder.finish.run.run reached = (.ok (some info), after) ∧
      disk.Gained other (segment.rangeEntries .all) after := by
  obtain ⟨-, -, hasc⟩ := layout_iff hlength h
  obtain ⟨builder, accepted, reached, hrun, -, -, hall, result, after, hfinish, -, hwritten⟩ :=
    hclear.run_ofOffers (segment.rangeEntries .all)
  -- Verified entries ascend, so the builder accepts all of them.
  obtain rfl := hall (hasc rfl)
  obtain ⟨rfl, hgained⟩ := hwritten hsome
  exact ⟨builder, reached, _, after, hrun, hfinish, hgained⟩

/-- **What opens as a segment.** Two files open without a record exactly if they are the layout of some
entries, and with verification exactly if moreover the keys of these ascend. The segment then has these
entries and the files are the layout of no others; there are none exactly if the data is empty and the
index is eight zeros. If the segment was verified and has entries, a builder that is offered them writes
the same files again, under any generation. -/
theorem opens_iff_layout (generation : UInt64) {dir : Snapshot} {data index : Bytes}
    (hdata : dir.holding (FileName.segment .data generation) = .file data)
    (hindex : dir.holding (FileName.segment .index generation) = .file index)
    (hlength : data.length < Layout.offsetSize) :
    (∀ verified,
      (∃ segment after, (load generation none verified).run.run (.ofSnapshot dir) =
        (.ok segment, after)) ↔
      ∃ entries, Layout.data entries = data ∧ Layout.index entries = index ∧
        (verified = true → Ascending entries)) ∧
    (∀ verified segment after, (load generation none verified).run.run (.ofSnapshot dir) =
        (.ok segment, after) →
      (∀ entries, Layout.data entries = data ∧ Layout.index entries = index ↔
        entries = segment.rangeEntries .all) ∧
      (segment.rangeEntries .all = [] ↔ data = [] ∧ index = List.replicate 8 0) ∧
      (verified = true → segment.rangeEntries .all ≠ [] →
        ∀ (other : UInt64) (sync : Bool) (target : Snapshot), target.Unshared →
          (∀ name ∈ FileName.ofGeneration other, target.holding name = .nothing) →
          ∃ builder reached info after,
            (Builder.ofOffers other sync (segment.rangeEntries .all)).run.run (.ofSnapshot target) =
              (.ok (builder, segment.rangeEntries .all), reached) ∧
            builder.finish.run.run reached = (.ok (some info), after) ∧
            after.snapshot.holding (FileName.segment .data other) = .file data ∧
            after.snapshot.holding (FileName.segment .index other) = .file index)) ∧
    (data = [] → index = List.replicate 8 0 → ∀ verified, ∃ segment after,
      (load generation none verified).run.run (.ofSnapshot dir) = (.ok segment, after)) := by
  have hopen : ∀ {verified segment after}, (load generation none verified).run.run (.ofSnapshot dir) =
      (.ok segment, after) ↔ ofFiles generation none verified data index = .ok segment ∧
        after = .ofSnapshot dir :=
    load_eq_ok (fun _ => (Disk.plain_ofSnapshot dir).fits _) ⟨hdata, hindex⟩
  have haccepted : ∀ verified, (∃ segment after,
      (load generation none verified).run.run (.ofSnapshot dir) = (.ok segment, after)) ↔
      ∃ entries, Layout.data entries = data ∧ Layout.index entries = index ∧
        (verified = true → Ascending entries) := by
    intro verified
    rw [← accepts_iff hlength verified]
    exact ⟨fun ⟨segment, _, hload⟩ => ⟨segment, (hopen.1 hload).1⟩,
      fun ⟨segment, hfiles⟩ => ⟨segment, _, hopen.2 ⟨hfiles, rfl⟩⟩⟩
  refine ⟨haccepted, fun verified segment after hload => ?_, ?_⟩
  · obtain ⟨hfiles, -⟩ := hopen.1 hload
    obtain ⟨hlayout, hnone, -⟩ := layout_iff hlength hfiles
    refine ⟨hlayout, hnone, fun hverified hsome other sync target _ hfree => ?_⟩
    subst hverified
    obtain ⟨builder, reached, info, done, hrun, hfinish, hgained⟩ :=
      written_again hlength hfiles hsome (.ofSnapshot sync hfree)
    obtain ⟨hdata', hindex'⟩ := (hlayout _).2 rfl
    have hwritten := hgained.files
    rw [hdata', hindex'] at hwritten
    exact ⟨builder, reached, info, done, hrun, hfinish, hwritten.data, hwritten.index⟩
  · rintro rfl rfl verified
    exact (haccepted verified).2 ⟨[], rfl, rfl, fun _ => List.Pairwise.nil⟩

/-- The index of a segment with a key that has an empty value and a deleted key. -/
def filedIndex : Bytes :=
  [0, 0, 0, 0, 0, 0, 0, 0, 1, 0, 0, 0, 0, 0, 0, 0, 1, 0, 0, 0, 0, 0, 0, 0,
    2, 0, 0, 0, 0, 0, 0, 128, 2, 0, 0, 0, 0, 0, 0, 0]

/-- A directory with the two files of such a segment. -/
def filed : Snapshot where
  names := ⟨[(FileName.segment .data 3, .file 0), (FileName.segment .index 3, .file 1)]⟩
  contents := ⟨[[1, 2], filedIndex]⟩

theorem opens_iff_layout_filed :
    (filed.holding (FileName.segment .data 3) = .file [1, 2] ∧
      filed.holding (FileName.segment .index 3) = .file filedIndex) ∧
    ∃ segment after, (load 3 none true).run.run (.ofSnapshot filed) = (.ok segment, after) ∧
      segment.rangeEntries .all = [.put [1] [], .tombstone [2]] ∧
      ∃ builder reached info written,
        (Builder.ofOffers 4 false [.put [1] [], .tombstone [2]]).run.run (.ofSnapshot .empty) =
          (.ok (builder, [.put [1] [], .tombstone [2]]), reached) ∧
        builder.finish.run.run reached = (.ok (some info), written) ∧
        written.snapshot.holding (FileName.segment .data 4) = .file [1, 2] ∧
        written.snapshot.holding (FileName.segment .index 4) = .file filedIndex := by
  have hdata : filed.holding (FileName.segment .data 3) = .file [1, 2] := by decide +kernel
  have hindex : filed.holding (FileName.segment .index 3) = .file filedIndex := by decide +kernel
  have hfiles : Layout.data [.put [1] [], .tombstone [2]] = [1, 2] ∧
      Layout.index [.put [1] [], .tombstone [2]] = filedIndex := by decide +kernel
  have hasc : Ascending [.put [1] [], .tombstone [2]] := by
    unfold Ascending
    decide
  obtain ⟨haccepted, hopened, -⟩ := opens_iff_layout 3 hdata hindex (by decide)
  obtain ⟨segment, after, hload⟩ := (haccepted true).2 ⟨_, hfiles.1, hfiles.2, fun _ => hasc⟩
  obtain ⟨hunique, -, hwritten⟩ := hopened true segment after hload
  have hentries := (hunique _).1 hfiles
  rw [← hentries] at hwritten
  have hsome : [Entry.put [1] [], .tombstone [2]] ≠ [] := by simp
  exact ⟨⟨hdata, hindex⟩, segment, after, hload, hentries.symm,
    hwritten rfl hsome 4 false .empty Snapshot.unshared_empty fun _ _ => rfl⟩

/-- **What opens at a path.** Where a path is short enough for the names of two files, these open exactly if
they are the layout of some entries, which ascend if that is verified. The segment has these entries and no
others, and a builder that is offered them writes the files again wherever nothing hinders it. -/
theorem opens_at_path_iff_layout {volume : Volume} {path : String}
    (hfits : ∀ half, (volume.disk path).fits (FileName.segment half generation) = true)
    (hfiles : Files (volume.disk path).snapshot generation data index)
    (hlength : data.length < Layout.offsetSize) (verified : Bool) :
    ((∃ segment, (volume.onDisk path (load generation none verified).run).1 = .ok segment) ↔
      ∃ entries, Layout.data entries = data ∧ Layout.index entries = index ∧
        (verified = true → Ascending entries)) ∧
    ∀ segment, (volume.onDisk path (load generation none verified).run).1 = .ok segment →
      (∀ entries, Layout.data entries = data ∧ Layout.index entries = index ↔
        entries = segment.rangeEntries .all) ∧
      (segment.rangeEntries .all = [] ↔ data = [] ∧ index = List.replicate 8 0) ∧
      (verified = true → segment.rangeEntries .all ≠ [] →
        ∀ (target : Volume) (place : String) (other : UInt64) (sync : Bool),
          Builder.Clear (target.disk place) other sync → ∃ builder reached info after,
            (Builder.ofOffers other sync (segment.rangeEntries .all)).run.run (target.disk place) =
              (.ok (builder, segment.rangeEntries .all), reached) ∧
            builder.finish.run.run reached = (.ok (some info), after) ∧
            Files ((target.update place after).disk place).snapshot other data index) := by
  have hopen : ∀ segment, (volume.onDisk path (load generation none verified).run).1 = .ok segment ↔
      ofFiles generation none verified data index = .ok segment := fun _ => onDisk_load_eq_ok hfits hfiles
  simp only [hopen]
  refine ⟨accepts_iff hlength verified, fun segment hsegment => ?_⟩
  obtain ⟨hlayout, hnone, -⟩ := layout_iff hlength hsegment
  refine ⟨hlayout, hnone, fun hverified hsome target place other sync hclear => ?_⟩
  subst hverified
  obtain ⟨builder, reached, info, after, hrun, hfinish, hgained⟩ :=
    written_again hlength hsegment hsome hclear
  obtain ⟨hdata, hindex⟩ := (hlayout _).2 rfl
  have hwritten := hgained.files_update
  rw [hdata, hindex] at hwritten
  exact ⟨builder, reached, info, after, hrun, hfinish, hwritten⟩

end Segment

/-! ## The files of a stored segment -/

/-- The contents of the files of a segment with the given entries. -/
def Layout.file (entries : List Entry) : Half → Bytes
  | .data => data entries
  | .index => index entries

/-- **The files of a stored segment** are the layout of its entries. -/
theorem Stored.holding_eq {s : Snapshot} {segment : Segment} (h : Stored s segment) (half : Half) :
    s.holding (FileName.segment half segment.generation) = .file (Layout.file segment.entries half) := by
  obtain ⟨data, index, hdata, hindex, hopen⟩ := h.files
  obtain ⟨slots, hcheck, hsame⟩ := Segment.ofFiles_eq_ok (hopen false)
  have hlength := Layout.length_lt_of_checkIndex hcheck
  obtain ⟨entries, rfl, rfl, rfl⟩ := (Layout.checkIndex_iff hlength).1 hcheck
  have hentries : segment.entries = entries := by
    have hplain : (Segment.ofEntries segment.generation entries).entries = entries :=
      Segment.entries_ofEntries hlength
    rw [← Except.ok.inj hsame]
    exact hplain
  rw [hentries]
  cases half with
  | data => exact hdata
  | index => exact hindex

end LsmTree
