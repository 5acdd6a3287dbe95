import LsmTree.Proofs.BurstDetection
import LsmTree.Proofs.Discovery
import LsmTree.Proofs.SegmentRoundTrip
import Mathlib.Data.List.Infix

/-!
# Damage to the files of a segment

What a builder has written may be damaged before it is opened. Of a burst in the data the recorded
checksum tells. Without a record a file that was torn is told by the other one: the index determines the
length of the data, and an index of another count of entries would need entries without octets, which
ascending keys leave no room for.

* **`Builder.Wrote`** — a builder has put the segment of some entries in place;
* **`Segment.burst_detected`** — a burst in the data is found by the segment and by the manager;
* **`Layout.index_eq_of_prefix`** — ascending entries and a first part of them do not share their data;
* **`Segment.torn_detected`** — so torn files do not open.
-/

namespace LsmTree

/-- The octets of a file may be replaced. -/
theorem Snapshot.Unshared.replaced {s : Snapshot} {name : String} {bytes : Bytes} (hu : s.Unshared)
    (h : s.holding name = .file bytes) (other : Bytes) :
    ∃ t : Snapshot, t.Unshared ∧
      ∀ name', t.holding name' = if name' = name then .file other else s.holding name' := by
  obtain ⟨number, hget, -⟩ := Snapshot.holding_eq_file.1 h
  exact ⟨_, Snapshot.set_holding hu hget other⟩

/-! ## What a builder leaves -/

namespace Builder

/-- A builder that was given the entries put their segment in place, which left `written`, and returned
its record. -/
def Wrote (generation : UInt64) (entries : List Entry) (info : SegmentMeta) (written : Disk) : Prop :=
  ∃ (sync : Bool) (dir : Snapshot) (builder taken : Builder) (started added : Disk), dir.Unshared ∧
    (start generation sync).run.run (.ofSnapshot dir) = (.ok builder, started) ∧
    (builder.addAll entries).run started = ((taken, none), added) ∧
    taken.finish.run.run added = (.ok (some info), written)

end Builder

namespace Segment

variable {generation : UInt64} {entries : List Entry} {data index damaged : Bytes} {dir : Snapshot}
  {recorded : Option SegmentMeta} {info : SegmentMeta} {written : Disk} {verified : Bool}

/-- The segment of a generation is not opened, because its files are found to be corrupt. -/
def Refused (dir : Snapshot) (generation : UInt64) (recorded : Option SegmentMeta)
    (verified : Bool) : Prop :=
  ∃ fault, (load generation recorded verified).run.run (.ofSnapshot dir) =
    (.error (.corrupt generation fault), .ofSnapshot dir)

/-- A segment is opened by what the names of its files hold. -/
theorem opened_of_load {result : Except Error Segment} {after : Disk}
    (h : (load generation recorded verified).run.run (.ofSnapshot dir) = (result, after)) :
    opened dir.holding generation recorded verified = result := by
  have hload : Runs (load generation recorded verified).run (Disk.ofSnapshot dir) _ _ :=
    runs_load generation recorded verified
  obtain ⟨-, ⟨-, hresult⟩, -⟩ := hload.ends (Disk.plain_ofSnapshot dir) h
  exact hresult.symm

theorem Files.refused (h : Files dir generation data index)
    (hnot : ∀ segment, ofFiles generation recorded verified data index ≠ .ok segment) :
    Refused dir generation recorded verified := by
  have hload := run_load (fun _ => (Disk.plain_ofSnapshot dir).fits _) h recorded verified
  cases hfiles : ofFiles generation recorded verified data index with
  | ok segment => exact absurd hfiles (hnot segment)
  | error fault =>
    rw [hfiles] at hload
    exact ⟨fault, hload⟩

end Segment

namespace Builder

variable {generation : UInt64} {entries : List Entry} {info : SegmentMeta} {written : Disk}

theorem Wrote.spec (h : Wrote generation entries info written) :
    entries ≠ [] ∧ Ascending entries ∧ info = (Segment.ofEntries generation entries).info ∧
      Segment.Files written.snapshot generation (Layout.data entries) (Layout.index entries) := by
  obtain ⟨sync, dir, builder, taken, started, added, hu, hstart, hadd, hfinish⟩ := h
  have hstarted : Runs (start generation sync).run (Disk.ofSnapshot dir) _ _ :=
    runs_start generation sync hu
  obtain ⟨hplain, ⟨htracks, rfl, -, -⟩, hwithin⟩ :=
    hstarted.ends (Disk.plain_ofSnapshot dir) hstart
  obtain ⟨hplain', ⟨hgeneration, accepted, htracks', hasc, hall, -⟩, hwithin'⟩ :=
    (runs_addAll entries hwithin.unshared htracks List.Pairwise.nil).ends hplain hadd
  obtain rfl : accepted = entries := hall rfl
  obtain ⟨-, ⟨hsome, rfl, hdata, hindex, -⟩, -⟩ :=
    (runs_finish hwithin'.unshared htracks').ends hplain' hfinish
  rw [hgeneration] at hdata hindex ⊢
  exact ⟨hsome, hasc, rfl, hdata, hindex⟩

/-- Entries that ascend are written wherever the names of the generation are free. -/
theorem wrote_of_ascending (generation : UInt64) (sync : Bool) {dir : Snapshot} (hu : dir.Unshared)
    (hfree : ∀ name ∈ FileName.ofGeneration generation, dir.holding name = .nothing)
    (hsome : entries ≠ []) (hasc : Ascending entries) :
    ∃ info written, Wrote generation entries info written := by
  have hclear : Clear (.ofSnapshot dir) generation sync := .ofSnapshot sync hfree
  obtain ⟨builder, hstarted, hwork⟩ := hclear.ends_start rfl
  -- Ascending entries are all taken.
  have htaken : taking [] entries = entries := taking_of_ascending hasc
  obtain ⟨hwork', haccepts⟩ := ends_addAll hwork entries
  rw [htaken] at hwork'
  have hall := haccepts.2 htaken
  obtain ⟨info, hfinished, -, hwritten⟩ := hclear.ends_finish rfl hwork'
  obtain ⟨rfl, -⟩ := hwritten hsome
  exact ⟨_, _, sync, dir, builder, _, _, _, hu, Prod.ext hstarted rfl, Prod.ext (Prod.ext rfl hall) rfl,
    Prod.ext hfinished rfl⟩

end Builder

/-! ## Bursts -/

namespace Segment

variable {generation : UInt64} {entries : List Entry} {data index damaged : Bytes} {dir : Snapshot}
  {info : SegmentMeta} {written : Disk} {segment first : Segment}

theorem crc_of_verify {crc : UInt32} (h : first.verify = .ok segment) (hcrc : first.dataCrc = some crc) :
    crc = first.data.crc32 := by
  by_cases hsame : crc = first.data.crc32
  · exact hsame
  · rw [verify, hcrc] at h
    simp [Option.filter, hsame] at h

/-- A burst in the data does not pass the verification against the record. -/
theorem ofFiles_burst (hburst : Bytes.Burst 4 (Layout.data entries) damaged) (segment : Segment) :
    ofFiles generation (some (ofEntries generation entries).info) true damaged index ≠ .ok segment := by
  intro h
  obtain ⟨slots, -, hverify⟩ := ofFiles_eq_ok h
  exact hburst.crc32_ne (crc_of_verify hverify rfl).symm

end Segment

namespace Manager

variable {start : Disk} {manifest : Manifest} {config : Config} {bytes : Bytes} {error : Error}

/-- The first listed segment that does not open ends the opening. -/
theorem mapM_eq_error {α β : Type} {f : α → Except Error β} {inputs : List α} {input : α}
    (hmem : input ∈ inputs) (hfails : f input = .error error)
    (hothers : ∀ other ∈ inputs, other ≠ input → ∃ output, f other = .ok output) :
    inputs.mapM f = .error error := by
  induction inputs with
  | nil => cases hmem
  | cons head rest ih =>
    rw [List.mapM_cons]
    by_cases hhead : head = input
    · subst hhead
      rw [hfails]
      rfl
    · obtain ⟨output, houtput⟩ := hothers head List.mem_cons_self hhead
      have hrest := ih ((List.mem_cons.1 hmem).resolve_left (Ne.symm hhead))
        fun other hother => hothers other (List.mem_cons_of_mem _ hother)
      rw [houtput, hrest]
      rfl

/-- **An opening fails as its listed segments do.** -/
theorem runs_recover_of_listed (hu : start.snapshot.Unshared)
    (hwritten : start.snapshot.holding FileName.manifest = .file bytes)
    (hdecode : Manifest.decode bytes = .ok manifest)
    (hlisted : listed start.snapshot.holding config.verifyChecksums manifest.segments = .error error) :
    Runs (recover config).run start (fun result _ => result = .error error) fun _ => True := by
  refine Runs.andThen ((runs_scan hu).monoCrash fun _ _ => trivial) ?_ ?_
  · rintro names disk₁ - ⟨hnames, hremoved⟩
    cases hnames
    refine Runs.andThen ((runs_committed config.verifyChecksums _ hremoved.unshared).monoCrash
      fun _ _ => trivial) ?_ ?_
    · rintro ⟨segments, next⟩ disk₂ - hfinds
      obtain ⟨hfound, -⟩ := hfinds.swept hremoved hwritten hdecode
      rw [hlisted] at hfound
      cases hfound
    · rintro fault disk₂ hfinds
      obtain ⟨hfound, -⟩ := hfinds.swept hremoved hwritten hdecode
      rw [hlisted] at hfound
      cases hfound
      rfl
  · rintro fault disk₁ ⟨hnames, -⟩
    cases hnames

end Manager

namespace Segment

variable {generation : UInt64} {entries : List Entry} {data index damaged : Bytes} {dir : Snapshot}
  {info : SegmentMeta} {written : Disk}

/-- **A segment that is not opened ends the opening** of a directory that lists it beside segments that open. -/
theorem opening_of_refused {config : Config} {recorded : SegmentMeta} {fault : SegmentFault} {bytes : Bytes}
    {manifest : Manifest} (hu : dir.Unshared) (hmanifest : dir.holding FileName.manifest = .file bytes)
    (hdecode : Manifest.decode bytes = .ok manifest) (hmem : recorded ∈ manifest.segments)
    (hrefused : opened dir.holding recorded.generation (some recorded) config.verifyChecksums =
      .error (.corrupt recorded.generation fault))
    (hothers : ∀ other ∈ manifest.segments, other ≠ recorded → ∃ segment,
      opened dir.holding other.generation (some other) config.verifyChecksums = .ok segment) :
    (Manager.opening config dir).1 = .error (.corrupt recorded.generation fault) := by
  have hlisted : Manager.listed dir.holding config.verifyChecksums manifest.segments =
      .error (.corrupt recorded.generation fault) := by
    apply Manager.mapM_eq_error hmem
    · show Manager.loaded dir.holding recorded.generation _ _ = _
      rw [Manager.loaded, hrefused]
      rfl
    · intro other hother hne
      obtain ⟨segment, hsegment⟩ := hothers other hother hne
      exact ⟨segment, Manager.loaded_eq_ok.2 hsegment⟩
  have hrecover : Runs (Manager.recover config).run (Disk.ofSnapshot dir) _ _ :=
    Manager.runs_recover_of_listed hu hmanifest hdecode hlisted
  exact (hrecover.apply (Disk.plain_ofSnapshot dir)).1

/-- **A burst in the data is found.** If octets of the data within a window of four have become others,
the segment does not open with the record that the builder returned and verification; and if a manifest
lists that record beside segments that open, nor does the directory, and the generation is told. -/
theorem burst_detected (h : Builder.Wrote generation entries info written)
    (hwritten : Files written.snapshot generation data index) (hburst : Bytes.Burst 4 data damaged)
    (hdamaged : Files dir generation damaged index) :
    Refused dir generation (some info) true ∧
      ∀ (config : Config) (bytes : Bytes) (manifest : Manifest), dir.Unshared →
        config.verifyChecksums = true → dir.holding FileName.manifest = .file bytes →
        Manifest.decode bytes = .ok manifest → info ∈ manifest.segments →
        (∀ other ∈ manifest.segments, other ≠ info → ∃ segment after,
          (load other.generation (some other) true).run.run (.ofSnapshot dir) = (.ok segment, after)) →
        ∃ fault, (Manager.opening config dir).1 = .error (.corrupt generation fault) := by
  obtain ⟨-, -, rfl, hfiles⟩ := h.spec
  obtain ⟨rfl, rfl⟩ := hwritten.unique hfiles
  have hrefused : Refused dir generation (some (ofEntries generation entries).info) true :=
    hdamaged.refused (ofFiles_burst hburst)
  refine ⟨hrefused, ?_⟩
  intro config bytes manifest hu hverified hmanifest hdecode hmem hothers
  obtain ⟨fault, hfault⟩ := hrefused
  refine ⟨fault, opening_of_refused hu hmanifest hdecode hmem ?_ fun other hother hne => ?_⟩
  · rw [hverified]
    exact opened_of_load hfault
  · obtain ⟨segment, after, hload⟩ := hothers other hother hne
    rw [hverified]
    exact ⟨segment, opened_of_load hload⟩

/-- The only value of a segment has become another one, in a directory that has been in use. -/
theorem burst_detected_flushed : ∃ info written dir fault,
    Builder.Wrote 1 [.put [1] [7]] info written ∧
      (∀ name, name ≠ FileName.segment .data 1 → dir.holding name = Manager.flushed.holding name) ∧
      dir.holding (FileName.segment .data 1) = .file [1, 9] ∧ Refused dir 1 (some info) true ∧
      (Manager.opening { verifyChecksums := true } dir).1 = .error (.corrupt 1 fault) := by
  let manifest := Manifest.current 2 [(ofEntries 1 [.put [1] [7]]).info]
  have ⟨hdata, hindex, hmanifest⟩ :
      Manager.flushed.holding (FileName.segment .data 1) = .file [1, 7] ∧
        Manager.flushed.holding (FileName.segment .index 1) = .file (Layout.index [.put [1] [7]]) ∧
        Manager.flushed.holding FileName.manifest =
          .file (Manifest.header manifest.payload ++ manifest.payload) := by decide +kernel
  have hdecode : Manifest.decode (Manifest.header manifest.payload ++ manifest.payload) = .ok manifest :=
    Manifest.decode_iff_records.2 ⟨rfl, [], by decide, by rw [List.append_nil]⟩
  obtain ⟨info, written, hwrote⟩ := Builder.wrote_of_ascending 1 true Snapshot.unshared_empty
    (fun _ _ => rfl) (List.cons_ne_nil (.put [1] [7]) []) (List.pairwise_singleton _ _)
  obtain ⟨-, -, rfl, hwritten⟩ := hwrote.spec
  obtain ⟨dir, hunshared, hdir⟩ := Manager.unshared_flushed.replaced hdata [1, 9]
  have hother : ∀ name, name ≠ FileName.segment .data 1 →
      dir.holding name = Manager.flushed.holding name := fun name hname => by rw [hdir, if_neg hname]
  have hdamaged : Files dir 1 [1, 9] (Layout.index [.put [1] [7]]) :=
    ⟨by rw [hdir, if_pos rfl], by rw [hother _ (by decide +kernel), hindex]⟩
  have hburst : Bytes.Burst 4 (Layout.data [.put [1] [7]]) ((Layout.data [.put [1] [7]]).set 1 9) :=
    Bytes.Burst.set (by omega) (by decide) (by decide)
  obtain ⟨hrefused, hopening⟩ := burst_detected hwrote hwritten hburst hdamaged
  -- The manifest lists the one segment, and nothing beside it.
  obtain ⟨fault, hfault⟩ := hopening { verifyChecksums := true } _ manifest hunshared rfl
    ((hother _ (FileName.segment_ne_manifest _ _).symm).trans hmanifest) hdecode List.mem_cons_self
    fun other hmem hne => absurd (List.mem_singleton.1 hmem) hne
  exact ⟨_, written, dir, fault, hwrote, hother, hdamaged.data, hrefused, hfault⟩

end Segment

/-! ## Torn files -/

namespace Layout

variable {short long : List Entry}

/-- An index is accepted for data of one length only. -/
theorem length_eq_of_checkIndex {index : Bytes} {length other : Nat} {slots slots' : List UInt64}
    (h : checkIndex index length = .ok slots) (hother : checkIndex index other = .ok slots') :
    length = other := by
  obtain ⟨rfl, -, tail, hslots, -, hchecked⟩ := of_checkIndex h
  obtain ⟨rfl, -, tail', hslots', -, hchecked'⟩ := of_checkIndex hother
  obtain rfl : tail = tail' := List.cons_inj_right 0 |>.1 (hslots.symm.trans hslots')
  exact Except.ok.inj (hchecked.symm.trans hchecked')

/-- The index of some entries goes on as the index of more of them does. -/
theorem index_prefix_append (front back : List Entry) : index front <+: index (front ++ back) := by
  rw [index, index, indexFrom_append, ← List.append_assoc]
  exact List.prefix_append _ _

/-- Entries that ascend after others have octets, since only the first key of all may be empty. -/
theorem eq_nil_of_data_eq_nil {front back : List Entry} (hasc : Ascending (front ++ back))
    (hsome : front ≠ []) (hdata : data back = []) : back = [] := by
  cases back with
  | nil => rfl
  | cons entry rest =>
    have hkey : entry.key = [] := by
      rw [data_cons, List.append_eq_nil_iff, entryBytes, List.append_eq_nil_iff] at hdata
      exact hdata.1.1
    obtain ⟨first, hfirst⟩ := List.exists_mem_of_ne_nil front hsome
    have hlt := (List.pairwise_append.1 hasc).2.2 first hfirst entry List.mem_cons_self
    rw [hkey] at hlt
    exact absurd hlt (List.not_lt_nil _)

/-- **Two lists of entries with the same data and with one index beginning the other** have the same
index, if the keys of the longer one ascend: further entries would have to be without octets. -/
theorem index_eq_of_prefix (hasc : Ascending long) (hlength : (data long).length < offsetSize)
    (hdata : data short = data long) (hsome : short ≠ []) (hbegins : index short <+: index long) :
    index short = index long := by
  have hcount : short.length ≤ long.length := by
    have hle := hbegins.length_le
    rw [length_index, length_index] at hle
    omega
  obtain ⟨front, back, rfl, hfront⟩ : ∃ front back, long = front ++ back ∧
      front.length = short.length :=
    ⟨long.take short.length, long.drop short.length, (List.take_append_drop _ _).symm,
      List.length_take_of_le hcount⟩
  have hindex : index short = index front := by
    apply List.IsPrefix.eq_of_length
    · apply List.prefix_of_prefix_length_le hbegins (index_prefix_append front back)
      rw [length_index, length_index, hfront]
    · rw [length_index, length_index, hfront]
  -- The index determines the length of the data, so the entries at the back have none.
  have hback : data back = [] := by
    have hsplit : (data (front ++ back)).length = (data front).length + (data back).length := by
      simp
    have hshort : checkIndex (index front) (data short).length = .ok (slotsOf short) :=
      hindex ▸ checkIndex_index (hdata ▸ hlength)
    have hsame := length_eq_of_checkIndex hshort (checkIndex_index (by omega))
    rw [hdata] at hsame
    exact List.length_eq_zero_iff.1 (by omega)
  have hfilled : front ≠ [] := List.ne_nil_of_length_pos (hfront ▸ List.length_pos_iff.2 hsome)
  rw [hindex, eq_nil_of_data_eq_nil hasc hfilled hback, List.append_nil]

end Layout

namespace Segment

variable {generation : UInt64} {entries : List Entry} {data index damaged : Bytes} {dir : Snapshot}
  {info : SegmentMeta} {written : Disk} {verified : Bool}

/-- Data that ends early or goes on is not accepted with the index of its entries. -/
theorem ofFiles_torn_data (hlength : (Layout.data entries).length < Layout.offsetSize)
    (htorn : damaged <+: Layout.data entries ∨ Layout.data entries <+: damaged)
    (hne : damaged ≠ Layout.data entries) (segment : Segment) :
    ofFiles generation none verified damaged (Layout.index entries) ≠ .ok segment := by
  intro hopened
  obtain ⟨slots, hchecked, -⟩ := ofFiles_eq_ok hopened
  have hsame := Layout.length_eq_of_checkIndex hchecked (Layout.checkIndex_index hlength)
  rcases htorn with hbegins | hbegins
  · exact hne (hbegins.eq_of_length hsame)
  · exact hne (hbegins.eq_of_length hsame.symm).symm

/-- An index that ends early is not accepted with data that has an octet. -/
theorem ofFiles_short_index (hasc : Ascending entries) (hsome : Layout.data entries ≠ [])
    (hlength : (Layout.data entries).length < Layout.offsetSize)
    (hbegins : damaged <+: Layout.index entries) (hne : damaged ≠ Layout.index entries)
    (segment : Segment) : ofFiles generation none verified (Layout.data entries) damaged ≠ .ok segment := by
  intro hopened
  obtain ⟨short, hdata, rfl, -, -⟩ := (ofFiles_iff hlength verified).1 hopened
  have hshort : short ≠ [] := by
    rintro rfl
    exact hsome hdata.symm
  exact hne (Layout.index_eq_of_prefix hasc hlength hdata hshort hbegins)

/-- An index that goes on does not pass verification. -/
theorem ofFiles_long_index (hentries : entries ≠ [])
    (hlength : (Layout.data entries).length < Layout.offsetSize)
    (hbegins : Layout.index entries <+: damaged) (hne : damaged ≠ Layout.index entries)
    (segment : Segment) : ofFiles generation none true (Layout.data entries) damaged ≠ .ok segment := by
  intro hopened
  obtain ⟨long, hdata, rfl, hlong, -⟩ := (ofFiles_iff hlength true).1 hopened
  exact hne (Layout.index_eq_of_prefix (hlong rfl) (hdata ▸ hlength) hdata.symm hentries hbegins).symm

/-- **Torn files are found,** even if nothing was recorded of the segment: data that ends early or goes
on and an index that ends early do not open, verified or not, and an index that goes on does not pass
verification. The data must have an octet at least, and no more than offsets can tell. -/
theorem torn_detected (h : Builder.Wrote generation entries info written)
    (hwritten : Files written.snapshot generation data index) (hsome : data ≠ [])
    (hlength : data.length < Layout.offsetSize) :
    (∀ damaged dir verified, Files dir generation damaged index →
      damaged <+: data ∨ data <+: damaged → damaged ≠ data →
      Refused dir generation none verified) ∧
    (∀ damaged dir verified, Files dir generation data damaged →
      damaged <+: index → damaged ≠ index → Refused dir generation none verified) ∧
    (∀ damaged dir, Files dir generation data damaged →
      index <+: damaged → damaged ≠ index → Refused dir generation none true) := by
  obtain ⟨hentries, hasc, -, hfiles⟩ := h.spec
  obtain ⟨rfl, rfl⟩ := hwritten.unique hfiles
  refine ⟨?_, ?_, ?_⟩
  · intro damaged dir verified hdamaged htorn hne
    exact hdamaged.refused (ofFiles_torn_data hlength htorn hne)
  · intro damaged dir verified hdamaged hbegins hne
    exact hdamaged.refused (ofFiles_short_index hasc hsome hlength hbegins hne)
  · intro damaged dir hdamaged hbegins hne
    exact hdamaged.refused (ofFiles_long_index hentries hlength hbegins hne)

/-- A directory with the two files of a segment and nothing else. -/
def pair (data index : Bytes) : Snapshot where
  names := ⟨[(FileName.segment .data 3, .file 0), (FileName.segment .index 3, .file 1)]⟩
  contents := ⟨[data, index]⟩

theorem files_pair (data index : Bytes) : Files (pair data index) 3 data index := by
  have hother : FileName.segment .data 3 ≠ FileName.segment .index 3 := by decide +kernel
  constructor <;> simp [Snapshot.holding, pair, Directory.get?, hother, Contents.get]

/-- The data of a segment cut and gone on, its index without the last entry, and with the end of the data
told once more, as if of an entry without octets. -/
theorem torn_detected_filed :
    Refused (pair [1] filedIndex) 3 none false ∧ Refused (pair [1, 2, 0] filedIndex) 3 none true ∧
      Refused (pair [1, 2] (filedIndex.take 24)) 3 none false ∧
      Refused (pair [1, 2] (filedIndex ++ filedIndex.drop 32 ++ filedIndex.drop 32)) 3 none true := by
  have hindex : Layout.index [.put [1] [], .tombstone [2]] = filedIndex := by decide +kernel
  have hasc : Ascending [.put [1] [], .tombstone [2]] := by
    unfold Ascending
    decide
  obtain ⟨info, written, hwrote⟩ := Builder.wrote_of_ascending 3 true Snapshot.unshared_empty
    (fun _ _ => rfl) (List.cons_ne_nil _ _) hasc
  obtain ⟨-, -, -, hwritten⟩ := hwrote.spec
  rw [hindex] at hwritten
  obtain ⟨hdata, hcut, hmore⟩ := torn_detected hwrote hwritten (by decide) (by decide)
  refine ⟨?_, ?_, ?_, ?_⟩
  · exact hdata _ _ _ (files_pair _ _) (.inl ⟨[2], rfl⟩) (by decide)
  · exact hdata _ _ _ (files_pair _ _) (.inr ⟨[0], rfl⟩) (by decide)
  · exact hcut _ _ _ (files_pair _ _) (List.take_prefix _ _) (by decide)
  · rw [List.append_assoc]
    exact hmore _ _ (files_pair _ _) (List.prefix_append _ _) (by decide)

end Segment

end LsmTree
