import LsmTree.Manager
import LsmTree.Proofs.LayoutRoundTrip
import LsmTree.Proofs.Runs
import LsmTree.Proofs.SegmentNames

/-!
# Building a segment, step by step

A builder keeps two files under temporary names and moves them into place at the end. Seen from the
directory before it, every step of it changes the four names of its generation at most, and if it does
not end with a segment it takes all its files away again:

* **`Stream.Carries`**, **`Builder.Tracks`** — what the files of a builder hold, or will hold once what
  is kept back is passed on;
* **`runs_publish`**, **`runs_finish`** — moving the files into place;
* **`Manager.runs_build`** — a segment that opens as the one of its entries, or none and nothing left.
-/

namespace LsmTree

open Snapshot (Within Restored)

/-! ## Differences from an earlier directory -/

namespace Runs

variable {α : Type} {start : Disk} {post : α → Disk → Prop} {operation : StateM Disk α}

theorem within {s : Snapshot} {names more : List String}
    (h : Runs operation start post (Within names start.snapshot))
    (hstart : Within more s start.snapshot) (hsub : names ⊆ more) :
    Runs operation start
      (fun a after => post a after ∧ Within names start.snapshot after.snapshot ∧
        Within more s after.snapshot)
      (Within more s) := by
  refine h.mono (fun a after hpost hcrash => ?_) fun t ht => hstart.trans (ht.mono hsub)
  exact ⟨hpost, hcrash, hstart.trans (hcrash.mono hsub)⟩

end Runs

/-! ## Streams -/

namespace Stream

/-- A stream into the file of a name, through which the given octets were written: some have been
passed on, the others are kept back. -/
structure Carries (stream : Stream) (snapshot : Snapshot) (name : String) (written : Bytes) : Prop where
  named : snapshot.names.get? name = some (.file stream.file)
  passed : ∃ passed, snapshot.holding name = .file passed ∧ stream.offset = passed.length ∧
    passed ++ stream.pending = written

variable {stream : Stream} {start : Disk} {name : String} {written : Bytes}

theorem Carries.within {s t : Snapshot} {other : String} (h : stream.Carries s name written)
    (hne : name ≠ other) (hnames : t.names = s.names) (hwithin : Within [other] s t) :
    stream.Carries t name written := by
  obtain ⟨passed, hholding, hoffset, hall⟩ := h.passed
  refine ⟨hnames ▸ h.named, passed, ?_, hoffset, hall⟩
  rw [hwithin.same name (by simpa using hne)]
  exact hholding

/-- Octets passed on come after those that were. -/
theorem runs_pass (stream : Stream) (hu : start.snapshot.Unshared)
    (hnamed : start.snapshot.names.get? name = some (.file stream.file)) {passed : Bytes}
    (hpassed : start.snapshot.holding name = .file passed) (hoffset : stream.offset = passed.length)
    (bytes : Bytes) :
    Runs (stream.pass bytes) start
      (fun stream' after => after.snapshot.names = start.snapshot.names ∧
        after.snapshot.holding name = .file (passed ++ bytes) ∧
        stream' = { stream with offset := (passed ++ bytes).length })
      (Within [name] start.snapshot) := by
  have hcontents : start.snapshot.contents.get stream.file = passed := by
    rw [Snapshot.holding_of_get?_file hnamed] at hpassed
    exact Holding.file.inj hpassed
  refine Runs.bind (Runs.write hu hnamed stream.offset bytes).withCrash ?_
  rintro ⟨⟩ after - ⟨⟨hnames, hholding⟩, hcrash⟩
  refine Runs.pure _ ⟨hnames, ?_, ?_⟩ hcrash
  · rw [hholding, if_pos rfl, hcontents, hoffset, Contents.overwritten_length]
  · rw [hoffset, List.length_append]

/-- **Passing on what was kept back** leaves all that was written in the file. -/
theorem runs_flush (hu : start.snapshot.Unshared) (h : stream.Carries start.snapshot name written) :
    Runs stream.flush start
      (fun stream' after => after.snapshot.names = start.snapshot.names ∧
        after.snapshot.holding name = .file written ∧
        stream' = ⟨stream.file, written.length, []⟩)
      (Within [name] start.snapshot) := by
  obtain ⟨passed, hholding, hoffset, rfl⟩ := h.passed
  unfold flush
  split
  · next hpending =>
    refine Runs.pure _ ⟨rfl, ?_, ?_⟩ (.refl _ hu)
    · rw [hholding, hpending, List.append_nil]
    · cases stream
      simp_all
  · refine Runs.bind (runs_pass stream hu h.named hholding hoffset stream.pending).withCrash ?_
    rintro stream' after - ⟨⟨hnames, hafter, rfl⟩, hcrash⟩
    exact Runs.pure _ ⟨hnames, hafter, rfl⟩ hcrash

/-- **Writing** adds octets to those that were written. -/
theorem runs_write (hu : start.snapshot.Unshared) (h : stream.Carries start.snapshot name written)
    (bytes : Bytes) :
    Runs (stream.write bytes) start
      (fun stream' after => after.snapshot.names = start.snapshot.names ∧
        stream'.Carries after.snapshot name (written ++ bytes))
      (Within [name] start.snapshot) := by
  obtain ⟨passed, hholding, hoffset, rfl⟩ := h.passed
  unfold write
  split
  · split
    · refine Runs.pure _ ⟨rfl, h.named, passed, hholding, hoffset, ?_⟩ (.refl _ hu)
      rw [List.append_assoc]
    · next hfits hlong =>
      -- Octets that fill the stream by themselves leave no room for any that are kept back.
      have hnone : stream.pending = [] := List.length_eq_zero_iff.1 (by omega)
      refine (runs_pass stream hu h.named hholding hoffset bytes).mono ?_ fun _ ht => ht
      rintro stream' after ⟨hnames, hafter, rfl⟩ -
      exact ⟨hnames, hnames ▸ h.named, _, hafter, rfl, by simp [hnone]⟩
  · refine Runs.bind (runs_flush hu h).withCrash ?_
    rintro stream' after - ⟨⟨hnames, hafter, rfl⟩, hcrash⟩
    have hnamed : after.snapshot.names.get? name = some (.file stream.file) := hnames ▸ h.named
    split
    · exact Runs.pure _ ⟨hnames, hnamed, _, hafter, rfl, rfl⟩ hcrash
    · refine (runs_pass ⟨stream.file, _, []⟩ hcrash.unshared hnamed hafter rfl bytes).mono ?_ fun _ ht => hcrash.trans ht
      rintro stream' done ⟨hnames', hdone, rfl⟩ -
      exact ⟨hnames'.trans hnames, by rw [hnames']; exact hnamed, _, hdone, rfl, by simp⟩

end Stream

/-! ## Taking files away -/

theorem runs_unlinkBoth {start : Disk} (hu : start.snapshot.Unshared) (first second : String) :
    Runs (do Disk.attempt (.unlink first); Disk.attempt (.unlink second)) start
      (fun _ after => ∀ name, after.snapshot.holding name =
        if name = first ∨ name = second then (start.snapshot.holding name).withoutFile
        else start.snapshot.holding name)
      (Within [first, second] start.snapshot) := by
  refine Runs.bind ((Runs.unlink hu).within (.refl _ hu) (by simp)) ?_
  rintro ⟨⟩ middle - ⟨hfirst, -, hmiddle⟩
  refine ((Runs.unlink hmiddle.unshared).within hmiddle (by simp)).mono ?_ fun _ ht => ht
  rintro ⟨⟩ after ⟨hsecond, -, -⟩ - name
  rw [hsecond name, hfirst second, hfirst name]
  by_cases hsecond' : name = second
  · subst hsecond'
    by_cases hfirst' : name = first
    · subst hfirst'
      simp
    · simp [hfirst']
  · by_cases hfirst' : name = first
    · subst hfirst'
      simp [hsecond']
    · simp [hfirst', hsecond']

/-! ## Builders -/

namespace Builder

/-- The names that the files of a builder have until it is finished. -/
def temporaries (generation : UInt64) : List String :=
  [temporary .data generation, temporary .index generation]

theorem temporaries_subset (generation : UInt64) :
    temporaries generation ⊆ FileName.ofGeneration generation := by
  intro name h
  simp only [temporaries, List.mem_cons, List.not_mem_nil, or_false] at h
  rcases h with rfl | rfl <;> simp [FileName.ofGeneration, temporary]

theorem temporary_data_ne_index (generation : UInt64) :
    temporary .data generation ≠ temporary .index generation := by
  simp [temporary]

/-- A builder that has taken the given entries: its files hold them, or will once what is kept back is
passed on. -/
structure Tracks (builder : Builder) (snapshot : Snapshot) (entries : List Entry) : Prop where
  data : builder.data.Carries snapshot (temporary .data builder.generation) (Layout.data entries)
  index : builder.index.Carries snapshot (temporary .index builder.generation) (Layout.index entries)
  offset : builder.offset = (Layout.data entries).length
  count : builder.count = entries.length
  last : builder.last = entries.getLast?.map Entry.key
  checksum : builder.checksum = Checksum.start.update (Layout.data entries)

variable {builder : Builder} {start : Disk} {entries : List Entry}

/-- Once both streams carry what is written of an entry, the builder has taken it. -/
theorem Tracks.push {s t : Snapshot} (h : builder.Tracks s entries) (entry : Entry) {data index : Stream}
    (hdata : data.Carries t (temporary .data builder.generation)
      (Layout.data entries ++ entry.key ++ entry.valueBytes))
    (hindex : index.Carries t (temporary .index builder.generation) (Layout.index entries ++
      Layout.slotBytes (Layout.boundary (builder.offset + entry.key.length) entry.isTombstone) ++
        Layout.slotBytes (UInt64.ofNat (builder.offset + entry.byteSize)))) :
    Tracks { builder with
      data, index
      offset := builder.offset + entry.byteSize
      count := builder.count + 1
      last := some entry.key
      checksum := (builder.checksum.update entry.key).update entry.valueBytes } t (entries ++ [entry]) := by
  refine ⟨?_, ?_, ?_, ?_, ?_, ?_⟩
  · simpa [Layout.entryBytes] using hdata
  · have hslots : Layout.index (entries ++ [entry]) = Layout.index entries ++
        Layout.slotBytes (Layout.boundary (builder.offset + entry.key.length) entry.isTombstone) ++
          Layout.slotBytes (UInt64.ofNat (builder.offset + entry.byteSize)) := by
      rw [Layout.index, Layout.indexFrom_append, h.offset]
      simp [Layout.index, Layout.indexFrom, Layout.entrySlots]
    rw [hslots]
    exact hindex
  · simp [h.offset, Layout.length_entryBytes]
  · simp [h.count]
  · simp
  · simp [h.checksum, Layout.entryBytes, Checksum.update_append]

/-- **A builder that takes one more entry** tracks it. -/
theorem runs_push (hu : start.snapshot.Unshared) (h : builder.Tracks start.snapshot entries)
    (entry : Entry) :
    Runs (builder.push entry) start
      (fun builder' after => builder'.Tracks after.snapshot (entries ++ [entry]) ∧
        builder'.generation = builder.generation ∧ builder'.sync = builder.sync)
      (Within (temporaries builder.generation) start.snapshot) := by
  have hne := temporary_data_ne_index builder.generation
  have hdata : [temporary .data builder.generation] ⊆ temporaries builder.generation := by
    simp [temporaries]
  have hindex : [temporary .index builder.generation] ⊆ temporaries builder.generation := by
    simp [temporaries]
  -- Writing into one file leaves what the other stream carries.
  refine Runs.bind ((Stream.runs_write hu h.data entry.key).within (.refl _ hu) hdata) ?_
  rintro data disk₁ - ⟨⟨hnames₁, hdata₁⟩, hwithin₁, htotal₁⟩
  have hindex₁ := h.index.within hne.symm hnames₁ hwithin₁
  refine Runs.bind ((Stream.runs_write htotal₁.unshared hdata₁ entry.valueBytes).within htotal₁ hdata) ?_
  rintro data' disk₂ - ⟨⟨hnames₂, hdata₂⟩, hwithin₂, htotal₂⟩
  have hindex₂ := hindex₁.within hne.symm hnames₂ hwithin₂
  refine Runs.bind ((Stream.runs_write htotal₂.unshared hindex₂ _).within htotal₂ hindex) ?_
  rintro index disk₃ - ⟨⟨hnames₃, hindex₃⟩, hwithin₃, htotal₃⟩
  have hdata₃ := hdata₂.within hne hnames₃ hwithin₃
  refine Runs.bind ((Stream.runs_write htotal₃.unshared hindex₃ _).within htotal₃ hindex) ?_
  rintro index' disk₄ - ⟨⟨hnames₄, hindex₄⟩, hwithin₄, htotal₄⟩
  have hdata₄ := hdata₃.within hne hnames₄ hwithin₄
  exact Runs.pure _ ⟨h.push entry hdata₄ hindex₄, rfl, rfl⟩ htotal₄

/-- An entry is refused unless its key comes after all keys taken before; the last one tells. -/
theorem Tracks.refusal?_eq {s : Snapshot} (h : builder.Tracks s entries) (hasc : Ascending entries)
    (entry : Entry) : ((∀ earlier ∈ entries, earlier.key < entry.key) ∧ builder.refusal? entry = none) ∨
      ∃ last ∈ entries, ¬ last.key < entry.key ∧
        builder.refusal? entry = some (.outOfOrder builder.generation entry.key last.key) := by
  rw [refusal?, h.last]
  rcases List.eq_nil_or_concat entries with rfl | ⟨front, last, rfl⟩
  · exact .inl ⟨by simp, rfl⟩
  · rw [List.concat_eq_append] at hasc ⊢
    rw [List.getLast?_concat, Option.map_some]
    dsimp only
    by_cases hlt : last.key < entry.key
    · rw [if_pos hlt]
      refine .inl ⟨fun earlier hmem => ?_, rfl⟩
      rcases List.mem_append.1 hmem with hmem | hmem
      · exact Bytes.lt_trans ((List.pairwise_append.1 hasc).2.2 earlier hmem last (by simp)) hlt
      · exact List.mem_singleton.1 hmem ▸ hlt
    · rw [if_neg hlt]
      exact .inr ⟨last, by simp, hlt, rfl⟩

/-- **A builder that is given entries** takes them as long as each comes after those before: all of them,
if they ascend. -/
theorem runs_addAll (more : List Entry) (hu : start.snapshot.Unshared)
    (h : builder.Tracks start.snapshot entries) (hasc : Ascending entries) :
    Runs (builder.addAll more) start
      (fun result after => result.1.generation = builder.generation ∧
        ∃ taken, result.1.Tracks after.snapshot taken ∧ Ascending taken ∧
          (result.2 = none → taken = entries ++ more) ∧
          ∀ error, result.2 = some error → ¬ Ascending (entries ++ more))
      (Within (temporaries builder.generation) start.snapshot) := by
  induction more generalizing builder entries start with
  | nil =>
    refine Runs.pure _ ⟨rfl, entries, h, hasc, fun _ => ?_, fun _ hrefused => (nomatch hrefused)⟩
      (.refl _ hu)
    rw [List.append_nil]
  | cons entry rest ih =>
    rcases h.refusal?_eq hasc entry with ⟨hafter, hnone⟩ | ⟨last, hlast, hnot, hrefused⟩
    · rw [addAll, hnone]
      refine Runs.bind ((runs_push hu h entry).within (.refl _ hu) (List.Subset.refl _)) ?_
      rintro builder' after - ⟨⟨htracks, hgeneration, -⟩, -, hwithin⟩
      have hasc' : Ascending (entries ++ [entry]) := by
        refine List.pairwise_append.2 ⟨hasc, by simp, fun earlier hmem later hlater => ?_⟩
        exact List.mem_singleton.1 hlater ▸ hafter earlier hmem
      have hrest := ih hwithin.unshared htracks hasc'
      rw [hgeneration] at hrest
      refine (hrest.within hwithin (List.Subset.refl _)).mono ?_ fun _ ht => ht
      rintro ⟨builder'', refusal⟩ done ⟨⟨hgeneration', htaken⟩, -, -⟩ -
      rw [List.append_assoc, List.singleton_append] at htaken
      exact ⟨hgeneration', htaken⟩
    · rw [addAll, hrefused]
      refine Runs.pure _ ⟨rfl, entries, h, hasc, fun hnone => (nomatch hnone), fun _ _ hall => ?_⟩
        (.refl _ hu)
      exact hnot ((List.pairwise_append.1 hall).2.2 last hlast entry List.mem_cons_self)

/-! ## From first to last -/

/-- The second file is created beside the first one; if it cannot be, the first one is taken away. -/
theorem runs_createIndex {generation : UInt64} {data : Nat} (hu : start.snapshot.Unshared)
    (hnamed : start.snapshot.names.get? (temporary .data generation) = some (.file data))
    (hfile : start.snapshot.holding (temporary .data generation) = .file []) :
    Runs (Disk.orElse (Disk.create (temporary .index generation))
        (Disk.attempt (.unlink (temporary .data generation)))).run start
      (fun result after => match result with
        | .ok index => start.snapshot.holding (temporary .index generation) ≠ .folder ∧
            (Stream.ofFile data).Carries after.snapshot (temporary .data generation) [] ∧
            (Stream.ofFile index).Carries after.snapshot (temporary .index generation) []
        | .error _ => start.snapshot.holding (temporary .index generation) = .folder ∧
            after.snapshot.holding (temporary .data generation) = .nothing ∧
            after.snapshot.holding (temporary .index generation) =
              start.snapshot.holding (temporary .index generation))
      (Within (temporaries generation) start.snapshot) := by
  have hne := temporary_data_ne_index generation
  refine Runs.orElse ((Runs.create hu).within (.refl _ hu) (by simp [temporaries])) ?_ ?_
  · rintro index after ⟨⟨hfolder, hnamed', hothers, hholding⟩, -, -⟩
    refine ⟨hfolder, ⟨?_, [], ?_, rfl, rfl⟩, ⟨hnamed', [], ?_, rfl, rfl⟩⟩
    · rw [hothers _ hne]
      exact hnamed
    · rw [hholding, if_neg hne]
      exact hfile
    · rw [hholding, if_pos rfl]
  · rintro error after ⟨⟨rfl, hfolder⟩, -⟩
    refine ((Runs.unlink hu).within (.refl _ hu) (by simp [temporaries])).mono ?_ fun _ ht => ht
    rintro ⟨⟩ done ⟨hholding, -, -⟩ -
    refine ⟨hfolder, ?_, ?_⟩
    · rw [hholding, if_pos rfl, hfile]
      rfl
    · rw [hholding, if_neg hne.symm]

/-- **A builder that is started** tracks no entries. It can be, unless a directory is where a file is to
be made, and then leaves nothing. -/
theorem runs_start (generation : UInt64) (sync : Bool) (hu : start.snapshot.Unshared) :
    Runs (Builder.start generation sync).run start
      (fun result after => match result with
        | .ok builder => builder.Tracks after.snapshot [] ∧ builder.generation = generation ∧
            builder.sync = sync ∧ ∀ half, start.snapshot.holding (temporary half generation) ≠ .folder
        | .error _ => Restored (temporaries generation) start.snapshot after.snapshot ∧
            ∃ half, start.snapshot.holding (temporary half generation) = .folder)
      (Within (temporaries generation) start.snapshot) := by
  have hne := temporary_data_ne_index generation
  refine Runs.andThen ((Runs.create hu).within (.refl _ hu) (by simp [temporaries])) ?_ ?_
  · rintro data disk₁ - ⟨⟨hdata, hnamed, -, hholding⟩, -, hwithin₁⟩
    have hfile : disk₁.snapshot.holding (temporary .data generation) = .file [] := by
      rw [hholding, if_pos rfl]
    have hindex : disk₁.snapshot.holding (temporary .index generation) =
        start.snapshot.holding (temporary .index generation) := by
      rw [hholding, if_neg hne.symm]
    refine Runs.andThen ((runs_createIndex hwithin₁.unshared hnamed hfile).within hwithin₁
      (List.Subset.refl _)) ?_ ?_
    · rintro index disk₂ - ⟨⟨hfolder, hcarries, hcarries'⟩, -, hwithin₂⟩
      rw [hindex] at hfolder
      refine Runs.liftThen ((Stream.runs_write hwithin₂.unshared hcarries' _).within hwithin₂
        (by simp [temporaries])) ?_
      rintro stream disk₃ - ⟨⟨hnames₃, hstream⟩, hwithin, hwithin₃⟩
      refine Runs.pure _ ⟨⟨?_, ?_, rfl, rfl, rfl, rfl⟩, rfl, rfl, ?_⟩ hwithin₃
      · exact hcarries.within hne hnames₃ hwithin
      · simpa [Layout.index, Layout.indexFrom] using hstream
      · intro half
        cases half
        · exact hdata
        · exact hfolder
    · rintro error after ⟨⟨hfolder, hnothing, hsame⟩, -, hwithin₂⟩
      refine ⟨.of_cleared hwithin₂ fun name hname => ?_, .index, hindex ▸ hfolder⟩
      simp only [temporaries, List.mem_cons, List.not_mem_nil, or_false] at hname
      rcases hname with rfl | rfl
      · exact .inr ⟨hdata, hnothing⟩
      · exact .inl (hsame.trans hindex)
  · rintro error after ⟨⟨rfl, hfolder⟩, -⟩
    exact ⟨.refl _ hu, .data, hfolder⟩

/-- Of the files of a generation nothing has come to stay: its temporary names are free, and its final
names hold what they held or nothing. -/
structure Cleared (generation : UInt64) (s t : Snapshot) : Prop where
  temporary : ∀ half, t.holding (temporary half generation) = .nothing
  segment : ∀ half, t.holding (FileName.segment half generation) =
      s.holding (FileName.segment half generation) ∨
    (s.holding (FileName.segment half generation) ≠ .folder ∧
      t.holding (FileName.segment half generation) = .nothing)

/-- Seen from before the builder was started, nothing but files is lost. -/
theorem Cleared.restored {generation : UInt64} {s t u : Snapshot} (h : Cleared generation t u)
    (hmade : Within (temporaries generation) s t) (hwithin : Within (FileName.ofGeneration generation) t u)
    (hfree : ∀ half, s.holding (Builder.temporary half generation) ≠ .folder) :
    Restored (FileName.ofGeneration generation) s u := by
  refine .of_cleared ((hmade.mono (temporaries_subset generation)).trans hwithin) fun name hname => ?_
  obtain ⟨half, rfl | rfl⟩ := FileName.mem_ofGeneration.1 hname
  · have hsame : t.holding (FileName.segment half generation) =
        s.holding (FileName.segment half generation) := by
      apply hmade.same
      simp [temporaries, Builder.temporary]
    rw [← hsame]
    exact h.segment half
  · exact .inr ⟨hfree half, h.temporary half⟩

theorem runs_removeTemporaries {generation : UInt64} (hu : start.snapshot.Unshared)
    (hfree : ∀ half, start.snapshot.holding (temporary half generation) ≠ .folder) :
    Runs (removeTemporaries generation) start
      (fun _ after => (∀ half, after.snapshot.holding (temporary half generation) = .nothing) ∧
        ∀ half, after.snapshot.holding (FileName.segment half generation) =
          start.snapshot.holding (FileName.segment half generation))
      (Within (temporaries generation) start.snapshot) := by
  refine (runs_unlinkBoth hu _ _).mono ?_ fun _ ht => ht
  rintro ⟨⟩ after hholding -
  refine ⟨fun half => ?_, fun half => ?_⟩
  · have hnone : (start.snapshot.holding (temporary half generation)).withoutFile = .nothing := by
      cases h : start.snapshot.holding (temporary half generation) with
      | nothing => rfl
      | folder => exact absurd h (hfree half)
      | file bytes => rfl
    rw [hholding, if_pos (by cases half <;> simp), hnone]
  · rw [hholding, if_neg (by simp [temporary])]

/-- Both streams of a builder, passed on, leave all that was written in its files. -/
theorem runs_flushBoth (hu : start.snapshot.Unshared) (h : builder.Tracks start.snapshot entries) :
    Runs (do let _ ← builder.data.flush; builder.index.flush) start
      (fun _ after => after.snapshot.names = start.snapshot.names ∧
        after.snapshot.holding (temporary .data builder.generation) = .file (Layout.data entries) ∧
        after.snapshot.holding (temporary .index builder.generation) = .file (Layout.index entries))
      (Within (temporaries builder.generation) start.snapshot) := by
  have hne := temporary_data_ne_index builder.generation
  refine Runs.bind ((Stream.runs_flush hu h.data).within (.refl _ hu) (by simp [temporaries])) ?_
  rintro _ disk₁ - ⟨⟨hnames₁, hdata₁, -⟩, hwithin₁, htotal₁⟩
  have hindex := h.index.within hne.symm hnames₁ hwithin₁
  refine ((Stream.runs_flush htotal₁.unshared hindex).within htotal₁ (by simp [temporaries])).mono ?_
    fun _ ht => ht
  rintro _ disk₂ ⟨⟨hnames₂, hindex₂, -⟩, hwithin₂, -⟩ -
  refine ⟨hnames₂.trans hnames₁, ?_, hindex₂⟩
  rw [hwithin₂.same _ (by simpa using hne)]
  exact hdata₁

/-- **Giving a builder up** leaves none of its files. -/
theorem runs_discard (hu : start.snapshot.Unshared) (h : builder.Tracks start.snapshot entries) :
    Runs builder.discard start
      (fun _ after => Cleared builder.generation start.snapshot after.snapshot)
      (Within (temporaries builder.generation) start.snapshot) := by
  refine Runs.of_run_eq ((do let _ ← builder.data.flush; builder.index.flush) >>= fun _ =>
    removeTemporaries builder.generation) start rfl rfl ?_
  refine Runs.bind ((runs_flushBoth hu h).within (.refl _ hu) (List.Subset.refl _)) ?_
  rintro _ flushed - ⟨⟨-, hdata, hindex⟩, -, hwithin⟩
  have hfree : ∀ half, flushed.snapshot.holding (temporary half builder.generation) ≠ .folder := by
    intro half
    cases half
    · simp [hdata]
    · simp [hindex]
  refine ((runs_removeTemporaries hwithin.unshared hfree).within hwithin (List.Subset.refl _)).mono
    ?_ fun _ ht => ht
  rintro ⟨⟩ after ⟨⟨htemporary, -⟩, -, htotal⟩ -
  refine ⟨htemporary, fun half => .inl (htotal.same _ ?_)⟩
  simp [temporaries, temporary]

/-- **Moving both files into place**; if one cannot be moved, neither has its final name. -/
theorem runs_publish {generation : UInt64} {data index : Bytes} (hu : start.snapshot.Unshared)
    (hdata : start.snapshot.holding (temporary .data generation) = .file data)
    (hindex : start.snapshot.holding (temporary .index generation) = .file index) :
    Runs (publish generation).run start
      (fun result after => match result with
        | .ok _ =>
          after.snapshot.holding (FileName.segment .data generation) = .file data ∧
          after.snapshot.holding (FileName.segment .index generation) = .file index ∧
          ∀ half, start.snapshot.holding (FileName.segment half generation) ≠ .folder ∧
            after.snapshot.holding (temporary half generation) = .nothing
        | .error _ =>
          (∀ half, after.snapshot.holding (FileName.segment half generation) =
              start.snapshot.holding (FileName.segment half generation) ∨
            (start.snapshot.holding (FileName.segment half generation) ≠ .folder ∧
              after.snapshot.holding (FileName.segment half generation) = .nothing)) ∧
          (∀ half, after.snapshot.holding (temporary half generation) ≠ .folder) ∧
          ∃ half, start.snapshot.holding (FileName.segment half generation) = .folder)
      (Within (FileName.ofGeneration generation) start.snapshot) := by
  have hne := temporary_data_ne_index generation
  have hcross : ∀ half half', temporary half generation ≠ FileName.segment half' generation := by
    simp [temporary]
  have hmoved : ∀ half, [temporary half generation, FileName.segment half generation] ⊆
      FileName.ofGeneration generation := by
    intro half name hname
    simp only [List.mem_cons, List.not_mem_nil, or_false] at hname
    exact FileName.mem_ofGeneration.2 ⟨half, hname.symm⟩
  refine Runs.andThen ((Runs.renameWithin hu hdata (hcross .data .data)).within (.refl _ hu)
    (hmoved .data)) ?_ ?_
  · rintro ⟨⟩ disk₁ - ⟨⟨hfolder, hholding₁⟩, -, hwithin₁⟩
    have hindex₁ : disk₁.snapshot.holding (temporary .index generation) = .file index := by
      rw [hholding₁, if_neg (hcross .index .data), if_neg hne.symm]
      exact hindex
    refine Runs.orElse ((Runs.renameWithin hwithin₁.unshared hindex₁ (hcross .index .index)).within
      hwithin₁ (hmoved .index)) ?_ ?_
    · rintro ⟨⟩ disk₂ ⟨⟨hfolder', hholding₂⟩, -⟩
      rw [hholding₁, if_neg (by simp), if_neg (hcross .data .index).symm] at hfolder'
      refine ⟨?_, ?_, fun half => ?_⟩
      · rw [hholding₂, if_neg (by simp), if_neg (hcross .index .data).symm, hholding₁, if_pos rfl]
      · rw [hholding₂, if_pos rfl]
      · cases half
        · refine ⟨hfolder, ?_⟩
          rw [hholding₂, if_neg (hcross .data .index), if_neg hne, hholding₁,
            if_neg (hcross .data .data), if_pos rfl]
        · refine ⟨hfolder', ?_⟩
          rw [hholding₂, if_neg (hcross .index .index), if_pos rfl]
    · rintro error disk₂ ⟨⟨rfl, hfolder'⟩, -⟩
      rw [hholding₁, if_neg (by simp), if_neg (hcross .data .index).symm] at hfolder'
      -- The index has not been moved, so the data is taken away again.
      refine ((Runs.unlink hwithin₁.unshared).within hwithin₁
        (by simp [FileName.ofGeneration])).mono ?_ fun _ ht => ht
      rintro ⟨⟩ after ⟨hholding, -, -⟩ -
      refine ⟨fun half => ?_, fun half => ?_, .index, hfolder'⟩
      · cases half
        · refine .inr ⟨hfolder, ?_⟩
          rw [hholding, if_pos rfl, hholding₁, if_pos rfl]
          rfl
        · refine .inl ?_
          rw [hholding, if_neg (by simp), hholding₁, if_neg (by simp),
            if_neg (hcross .data .index).symm]
      · cases half
        · rw [hholding, if_neg (hcross .data .data), hholding₁, if_neg (hcross .data .data), if_pos rfl]
          simp
        · rw [hholding, if_neg (hcross .index .data), hindex₁]
          simp
  · rintro error after ⟨⟨rfl, hfolder⟩, -⟩
    refine ⟨fun half => .inl rfl, fun half => ?_, .data, hfolder⟩
    cases half
    · simp [hdata]
    · simp [hindex]

theorem runs_publishOrRemove {generation : UInt64} {data index : Bytes} (hu : start.snapshot.Unshared)
    (hdata : start.snapshot.holding (temporary .data generation) = .file data)
    (hindex : start.snapshot.holding (temporary .index generation) = .file index) :
    Runs (Disk.orElse (publish generation) (removeTemporaries generation)).run start
      (fun result after => match result with
        | .ok _ =>
          after.snapshot.holding (FileName.segment .data generation) = .file data ∧
          after.snapshot.holding (FileName.segment .index generation) = .file index ∧
          ∀ half, start.snapshot.holding (FileName.segment half generation) ≠ .folder ∧
            after.snapshot.holding (temporary half generation) = .nothing
        | .error _ => Cleared generation start.snapshot after.snapshot ∧
            ∃ half, start.snapshot.holding (FileName.segment half generation) = .folder)
      (Within (FileName.ofGeneration generation) start.snapshot) := by
  refine Runs.orElse ((runs_publish hu hdata hindex).within (.refl _ hu) (List.Subset.refl _)) ?_ ?_
  · rintro ⟨⟩ after ⟨hplaced, -, -⟩
    exact hplaced
  · rintro error failed ⟨⟨hplaces, hfree, hfolder⟩, -, htotal⟩
    refine ((runs_removeTemporaries htotal.unshared hfree).within htotal
      (temporaries_subset generation)).mono ?_ fun _ ht => ht
    rintro ⟨⟩ after ⟨⟨htemporary, hsame⟩, -, -⟩ -
    exact ⟨⟨htemporary, fun half => hsame half ▸ hplaces half⟩, hfolder⟩

/-- **Finishing** puts the files in place, or leaves none of them: if there are no entries, or if a
directory is where a file is to go. -/
theorem runs_finish (hu : start.snapshot.Unshared) (h : builder.Tracks start.snapshot entries) :
    Runs builder.finish.run start
      (fun result after => match result with
        | .ok (some info) => entries ≠ [] ∧
          info = (Segment.ofEntries builder.generation entries).info ∧
          after.snapshot.holding (FileName.segment .data builder.generation) =
            .file (Layout.data entries) ∧
          after.snapshot.holding (FileName.segment .index builder.generation) =
            .file (Layout.index entries) ∧
          ∀ half, start.snapshot.holding (FileName.segment half builder.generation) ≠ .folder ∧
            after.snapshot.holding (temporary half builder.generation) = .nothing
        | .ok none => entries = [] ∧ Cleared builder.generation start.snapshot after.snapshot
        | .error _ => Cleared builder.generation start.snapshot after.snapshot ∧
            ∃ half, start.snapshot.holding (FileName.segment half builder.generation) = .folder)
      (Within (FileName.ofGeneration builder.generation) start.snapshot) := by
  unfold finish
  split
  · next hcount =>
    have hnone : entries = [] := List.length_eq_zero_iff.1 (h.count ▸ hcount)
    refine Runs.liftThen ((runs_discard hu h).within (.refl _ hu) (temporaries_subset _)) ?_
    rintro ⟨⟩ after - ⟨hcleared, -, htotal⟩
    exact Runs.pure _ ⟨hnone, hcleared⟩ htotal
  · next hcount =>
    have hsome : entries ≠ [] := by
      rintro rfl
      exact hcount h.count
    refine Runs.of_run_eq ((liftM (do let _ ← builder.data.flush; builder.index.flush) >>= fun _ => do
        let dataLen ← liftM (Disk.fileLength builder.data.file)
        let indexLen ← liftM (Disk.fileLength builder.index.file)
        Disk.orElse (publish builder.generation) (removeTemporaries builder.generation)
        if builder.sync then
          Disk.sync
        return some (builder.info dataLen indexLen) : DiskM (Option SegmentMeta)).run) start rfl rfl ?_
    refine Runs.liftThen ((runs_flushBoth hu h).within (.refl _ hu) (temporaries_subset _)) ?_
    rintro _ flushed - ⟨⟨hnames, hdata, hindex⟩, hwithin, htotal⟩
    -- The lengths are those of the files, since all octets have been passed on.
    have hlength : ∀ {stream : Stream} {name : String} {bytes written : Bytes},
        stream.Carries start.snapshot name written → flushed.snapshot.holding name = .file bytes →
        flushed.contents.get stream.file = bytes := by
      intro stream name bytes written hcarries hholding
      have hnamed : flushed.snapshot.names.get? name = some (.file stream.file) := hnames ▸ hcarries.named
      rw [Snapshot.holding_of_get?_file hnamed] at hholding
      exact Holding.file.inj hholding
    have hinfo : builder.info (flushed.contents.get builder.data.file).length
        (flushed.contents.get builder.index.file).length =
          (Segment.ofEntries builder.generation entries).info := by
      rw [hlength h.data hdata, hlength h.index hindex, Segment.info_ofEntries, info, h.count, h.checksum]
      rfl
    have hfree : ∀ half, flushed.snapshot.holding (temporary half builder.generation) ≠ .folder := by
      intro half
      cases half
      · simp [hdata]
      · simp [hindex]
    refine Runs.of_run_eq (do
        Disk.orElse (publish builder.generation) (removeTemporaries builder.generation)
        if builder.sync then
          Disk.sync
        return some (builder.info (flushed.contents.get builder.data.file).length
          (flushed.contents.get builder.index.file).length) : DiskM (Option SegmentMeta)).run flushed
      rfl rfl ?_
    rw [hinfo]
    have hsegment : ∀ half, flushed.snapshot.holding (FileName.segment half builder.generation) =
        start.snapshot.holding (FileName.segment half builder.generation) := by
      intro half
      apply hwithin.same
      simp [temporaries, temporary]
    refine Runs.andThen ((runs_publishOrRemove htotal.unshared hdata hindex).within htotal
      (List.Subset.refl _)) ?_ ?_
    · rintro ⟨⟩ placed - ⟨⟨hdata', hindex', hplaced⟩, -, htotal'⟩
      have hhalves : ∀ half,
          start.snapshot.holding (FileName.segment half builder.generation) ≠ .folder ∧
            placed.snapshot.holding (temporary half builder.generation) = .nothing := fun half =>
        ⟨hsegment half ▸ (hplaced half).1, (hplaced half).2⟩
      split
      · refine Runs.andThen (Runs.sync.monoCrash ?_) ?_ ?_
        · rintro t rfl
          exact htotal'
        · rintro _ after - ⟨rfl, -⟩
          exact Runs.pure _ ⟨hsome, rfl, hdata', hindex', hhalves⟩ htotal'
        · rintro error after ⟨-, herror⟩
          cases herror
      · exact Runs.pure _ ⟨hsome, rfl, hdata', hindex', hhalves⟩ htotal'
    · rintro error after ⟨⟨⟨htemporary, hplaces⟩, half, hfolder⟩, -, -⟩
      exact ⟨⟨htemporary, fun half => hsegment half ▸ hplaces half⟩, half, hsegment half ▸ hfolder⟩

end Builder

end LsmTree
