import LsmTree.Proofs.Building
import LsmTree.Proofs.Endings
import LsmTree.Proofs.LayoutRoundTrip
import LsmTree.Proofs.LongPaths

/-!
# All of a segment or nothing

A builder leaves both files of its segment or no trace, whatever it is asked to take, however it ends and
whatever stands in its way: directories under any of its names, a path that leaves too little room for
them, or one that leads nowhere. Only if the directory cannot be synced in the end does a builder fail that
has both files in place, and leaves them there.

* **`Disk.Fills`** — what writing into open files changes;
* **`Builder.AtWork`** — a directory with the two temporary files of a builder and nothing else new, kept by
  **`ends_start`**, **`ends_answer`** and **`ends_answerAll`**;
* **`Builder.ends_discard`**, **`Builder.ends_publish`**, **`Builder.ends_finish`** — each exit with its
  clean-up;
* **`Builder.lifetime_leaves_all_or_nothing`** — a builder from first to last, and
  **`Builder.sync_fails_in_place`** — one that fails late.
-/

namespace LsmTree

/-! ## Writing into open files -/

/-- Octets have been written into the given files only, and no file has come or gone. -/
structure Disk.Fills (files : List Nat) (disk after : Disk) : Prop where
  placed : ∃ issued, after = { disk with contents := after.contents, issued }
  size : after.contents.size = disk.contents.size
  kept : ∀ number, number ∉ files → after.contents.get number = disk.contents.get number

namespace Disk.Fills

variable {disk middle after : Disk} {files more : List Nat}

theorem refl (files : List Nat) (disk : Disk) : Fills files disk disk :=
  ⟨⟨disk.issued, rfl⟩, rfl, fun _ _ => rfl⟩

theorem trans (h : Fills files disk middle) (h' : Fills files middle after) : Fills files disk after := by
  obtain ⟨issued, hplaced⟩ := h'.placed
  obtain ⟨issued', hplaced'⟩ := h.placed
  refine ⟨⟨issued, ?_⟩, h'.size.trans h.size, fun number hnot => ?_⟩
  · rw [hplaced, hplaced']
  · rw [h'.kept number hnot, h.kept number hnot]

theorem mono (h : Fills files disk after) (hsub : files ⊆ more) : Fills more disk after :=
  ⟨h.placed, h.size, fun number hnot => h.kept number fun hmem => hnot (hsub hmem)⟩

theorem names (h : Fills files disk after) : after.snapshot.names = disk.snapshot.names := by
  obtain ⟨issued, hplaced⟩ := h.placed
  rw [hplaced]
  rfl

theorem became {start : Disk} {dir : Directory} {contents : Contents} (h : Fills files disk after)
    (hbecame : start.Became dir contents disk) : start.Became dir after.contents after := by
  obtain ⟨issued, hplaced⟩ := h.placed
  obtain ⟨issued', rfl⟩ := hbecame
  exact ⟨issued, hplaced⟩

end Disk.Fills

namespace Stream

variable {stream : Stream} {disk : Disk} {name : String} {written : Bytes}

/-- What a stream into a named file carries is in that file or kept back. -/
theorem carries_iff {s : Snapshot} (hnamed : s.names.get? name = some (.file stream.file)) :
    stream.Carries s name written ↔ stream.offset = (s.contents.get stream.file).length ∧
      s.contents.get stream.file ++ stream.pending = written := by
  have hholding := Snapshot.holding_of_get?_file hnamed
  constructor
  · rintro ⟨-, passed, hpassed, hoffset, hall⟩
    obtain rfl : s.contents.get stream.file = passed := Holding.file.inj (hholding.symm.trans hpassed)
    exact ⟨hoffset, hall⟩
  · rintro ⟨hoffset, hall⟩
    exact ⟨hnamed, _, hholding, hoffset, hall⟩

theorem carries_of_get {s : Snapshot} (hnamed : s.names.get? name = some (.file stream.file))
    (hoffset : stream.offset = (s.contents.get stream.file).length)
    (hall : s.contents.get stream.file ++ stream.pending = written) : stream.Carries s name written :=
  (carries_iff hnamed).2 ⟨hoffset, hall⟩

/-- A stream into an empty file carries nothing. -/
theorem carries_ofFile {s : Snapshot} {file : Nat} (hnamed : s.names.get? name = some (.file file))
    (hempty : s.contents.get file = []) : (ofFile file).Carries s name [] :=
  carries_of_get hnamed (congrArg List.length hempty.symm) ((List.append_nil _).trans hempty)

/-- A stream carries what it did while other files are written. -/
theorem Carries.fills {after : Disk} {files : List Nat} (h : stream.Carries disk.snapshot name written)
    (hfills : disk.Fills files after) (hnot : stream.file ∉ files) :
    stream.Carries after.snapshot name written := by
  have hnamed : after.snapshot.names.get? name = some (.file stream.file) := hfills.names ▸ h.named
  rw [carries_iff hnamed]
  show _ = (after.contents.get _).length ∧ after.contents.get _ ++ _ = _
  rw [hfills.kept _ hnot]
  exact (carries_iff h.named).1 h

/-- Octets passed on come after those that were. -/
theorem ends_pass (stream : Stream) (hmade : stream.file < disk.contents.size)
    (hoffset : stream.offset = (disk.contents.get stream.file).length) (bytes : Bytes) :
    Ends (stream.pass bytes) disk fun stream' after => disk.Fills [stream.file] after ∧
      after.contents.get stream.file = disk.contents.get stream.file ++ bytes ∧
      stream' = { stream with offset := (disk.contents.get stream.file ++ bytes).length } := by
  refine ⟨⟨⟨_, rfl⟩, ?_, fun number hnot => ?_⟩, ?_, ?_⟩
  · exact List.length_set ..
  · exact Contents.get_write_of_ne (by simpa using hnot) _ _ _
  · refine (Contents.get_write_self hmade _ _).trans ?_
    rw [hoffset, Contents.overwritten_length]
  · rw [List.length_append, ← hoffset]
    rfl

/-- **Passing on what was kept back** leaves all that was written in the file. -/
theorem ends_flush (h : stream.Carries disk.snapshot name written)
    (hmade : stream.file < disk.contents.size) :
    Ends stream.flush disk fun stream' after => disk.Fills [stream.file] after ∧
      after.contents.get stream.file = written ∧ stream' = ⟨stream.file, written.length, []⟩ := by
  obtain ⟨hoffset, rfl⟩ := (carries_iff h.named).1 h
  unfold flush
  split
  · next hpending =>
    refine Ends.pure _ ⟨.refl _ _, ?_, ?_⟩
    · rw [hpending, List.append_nil]
      rfl
    · cases stream
      simp_all
  · refine Ends.bind (ends_pass stream hmade hoffset stream.pending) ?_
    rintro stream' after ⟨hfills, hget, rfl⟩
    exact Ends.pure _ ⟨hfills, hget, rfl⟩

/-- **Writing** adds octets to those that were written. -/
theorem ends_write (h : stream.Carries disk.snapshot name written)
    (hmade : stream.file < disk.contents.size) (bytes : Bytes) :
    Ends (stream.write bytes) disk fun stream' after => disk.Fills [stream.file] after ∧
      stream'.file = stream.file ∧ stream'.Carries after.snapshot name (written ++ bytes) := by
  obtain ⟨hoffset, hall⟩ := (carries_iff h.named).1 h
  have hnamed : ∀ {after : Disk}, disk.Fills [stream.file] after →
      after.snapshot.names.get? name = some (.file stream.file) := fun hfills => hfills.names ▸ h.named
  unfold write
  split
  · split
    · refine Ends.pure _ ⟨.refl _ _, rfl, h.named, _, Snapshot.holding_of_get?_file h.named, hoffset, ?_⟩
      rw [← List.append_assoc, hall]
    · next hfits hlong =>
      -- Octets that fill the stream by themselves leave no room for any that are kept back.
      have hnone : stream.pending = [] := List.length_eq_zero_iff.1 (by omega)
      refine (ends_pass stream hmade hoffset bytes).mono ?_
      rintro stream' after ⟨hfills, hget, rfl⟩
      refine ⟨hfills, rfl, carries_of_get (hnamed hfills) (congrArg List.length hget.symm) ?_⟩
      rw [hnone, List.append_nil] at hall ⊢
      rw [← hall]
      exact hget
  · refine Ends.bind (ends_flush h hmade) ?_
    rintro stream' after ⟨hfills, hget, rfl⟩
    split
    · exact Ends.pure _ ⟨hfills, rfl, carries_of_get (hnamed hfills) (congrArg List.length hget.symm)
        (congrArg (· ++ bytes) hget)⟩
    · refine (ends_pass _ (hfills.size ▸ hmade) (congrArg List.length hget.symm) bytes).mono ?_
      rintro stream' done ⟨hfills', hget', rfl⟩
      refine ⟨hfills.trans hfills', rfl, carries_of_get (hnamed (hfills.trans hfills'))
        (congrArg List.length hget'.symm) ?_⟩
      refine (List.append_nil _).trans (hget'.trans ?_)
      exact congrArg (· ++ bytes) hget

end Stream

namespace Disk

variable {disk after : Disk}

/-- The directory is as it was, and so is every file that there was. -/
structure Unchanged (disk after : Disk) : Prop where
  folder : after.folder = disk.folder
  kept : ∀ number < disk.contents.size, after.contents.get number = disk.contents.get number

/-- The directory has two more files, which hold the layout of the entries; all else is as it was. -/
structure Gained (generation : UInt64) (entries : List Entry) (disk after : Disk) : Prop where
  folder : ∃ dir, disk.folder = .ok dir ∧
    (∀ half, dir.get? (FileName.segment half generation) = none) ∧
    after.folder = .ok ⟨(FileName.segment .index generation, .file (disk.contents.size + 1)) ::
      (FileName.segment .data generation, .file disk.contents.size) :: dir.entries⟩
  data : after.contents.get disk.contents.size = Layout.data entries
  index : after.contents.get (disk.contents.size + 1) = Layout.index entries
  kept : ∀ number < disk.contents.size, after.contents.get number = disk.contents.get number

theorem Unchanged.refl (disk : Disk) : Unchanged disk disk := ⟨rfl, fun _ _ => rfl⟩

theorem not_folder_put (dir : Directory) (name : String) (number : Nat) (entries : List (String × Node)) :
    (dir.put name (.file number)).get? name ≠ some (.folder entries) := by
  rw [Directory.get?_put, if_pos rfl]
  rintro ⟨⟩

/-- A name that is no file's is free unless a directory has it. -/
theorem free_of_file? {dir : Directory} {name : String} (hfile : dir.file? name = none)
    (hfolder : ∀ entries, dir.get? name ≠ some (.folder entries)) : dir.get? name = none := by
  unfold Directory.file? at hfile
  cases hget : dir.get? name with
  | none => rfl
  | some node =>
    cases node with
    | file number => simp [hget] at hfile
    | folder entries => exact absurd hget (hfolder entries)

end Disk

/-! ## A builder at work -/

namespace Builder

/-- What a builder may be asked to take. -/
inductive Call
  | add (entry : Entry)
  | addAll (entries : List Entry)

/-- The entries taken after more are offered: up to the first whose key does not come after all keys taken
before. -/
def taking (taken : List Entry) : List Entry → List Entry
  | [] => taken
  | entry :: rest =>
    if ∀ earlier ∈ taken, earlier.key < entry.key then taking (taken ++ [entry]) rest else taken

/-- Entries that ascend are all taken. -/
theorem taking_of_ascending {taken offered : List Entry} (h : Ascending (taken ++ offered)) :
    taking taken offered = taken ++ offered := by
  induction offered generalizing taken with
  | nil => exact (List.append_nil _).symm
  | cons entry rest ih =>
    have hafter : ∀ earlier ∈ taken, earlier.key < entry.key := fun earlier hmem =>
      (List.pairwise_append.1 h).2.2 earlier hmem entry List.mem_cons_self
    rw [List.append_cons] at h ⊢
    rw [taking, if_pos hafter, ih h]

/-- The entries that a call offers. -/
def Call.offered : Call → List Entry
  | .add entry => [entry]
  | .addAll entries => entries

/-- The entries taken after a call. -/
def Call.extend (taken : List Entry) (call : Call) : List Entry := taking taken call.offered

/-- The entries accepted by one call after the other. -/
def accepted (calls : List Call) : List Entry := calls.foldl Call.extend []

/-- Answers a call: the builder after it, and why it went no further if it did not take all that it was
offered. -/
def answer (builder : Builder) : Call → StateM Disk (Builder × Option Error)
  | .add entry => do
    match ← (builder.add entry).run with
    | .ok next => return (next, none)
    | .error error => return (builder, some error)
  | .addAll entries => builder.addAll entries

/-- Answers one call after the other. -/
def answerAll (builder : Builder) : List Call → StateM Disk Builder
  | [] => return builder
  | call :: rest => do
    let (next, _) ← builder.answer call
    next.answerAll rest

/-- How a builder ends. -/
inductive Ending
  | finish
  | drop

/-- Ends the builder. -/
def conclude (builder : Builder) : Ending → DiskM (Option SegmentMeta)
  | .finish => builder.finish
  | .drop => do
    builder.discard
    return none

/-- A builder from first to last. -/
def lifetime (generation : UInt64) (sync : Bool) (calls : List Call) (ending : Ending) :
    DiskM (Option SegmentMeta) := do
  let builder ← start generation sync
  let builder ← builder.answerAll calls
  builder.conclude ending

variable {builder : Builder} {start disk : Disk} {entries : List Entry} {dir : Directory}
  {contents : Contents} {generation : UInt64} {sync : Bool}

/-- **A builder that takes one more entry** tracks it, and writes into its two files only. -/
theorem ends_push (h : builder.Tracks disk.snapshot entries)
    (hdata : builder.data.file < disk.contents.size) (hindex : builder.index.file < disk.contents.size)
    (hne : builder.data.file ≠ builder.index.file) (entry : Entry) :
    Ends (builder.push entry) disk fun builder' after =>
      builder'.Tracks after.snapshot (entries ++ [entry]) ∧
      disk.Fills [builder.data.file, builder.index.file] after ∧
      builder'.data.file = builder.data.file ∧ builder'.index.file = builder.index.file ∧
      builder'.generation = builder.generation ∧ builder'.sync = builder.sync := by
  have hsub : [builder.data.file] ⊆ [builder.data.file, builder.index.file] := by simp
  have hsub' : [builder.index.file] ⊆ [builder.data.file, builder.index.file] := by simp
  -- Writing into one file leaves what the other stream carries.
  refine Ends.bind (Stream.ends_write h.data hdata entry.key) ?_
  rintro data₁ disk₁ ⟨hfills₁, hfile₁, hdata₁⟩
  have hindex₁ := h.index.fills hfills₁ (by simpa using hne.symm)
  refine Ends.bind (Stream.ends_write hdata₁ (by rw [hfile₁, hfills₁.size]; exact hdata) _) ?_
  rintro data₂ disk₂ ⟨hfills₂, hfile₂, hdata₂⟩
  rw [hfile₁] at hfills₂ hfile₂
  have hindex₂ := hindex₁.fills hfills₂ (by simpa using hne.symm)
  have hfills := hfills₁.trans hfills₂
  refine Ends.bind (Stream.ends_write hindex₂ (by rw [hfills.size]; exact hindex) _) ?_
  rintro index₃ disk₃ ⟨hfills₃, hfile₃, hindex₃⟩
  have hdata₃ := hdata₂.fills hfills₃ (by rw [hfile₂]; simpa using hne)
  refine Ends.bind (Stream.ends_write hindex₃
    (by rw [hfile₃, hfills₃.size, hfills.size]; exact hindex) _) ?_
  rintro index₄ disk₄ ⟨hfills₄, hfile₄, hindex₄⟩
  rw [hfile₃] at hfills₄ hfile₄
  have hdata₄ := hdata₃.fills hfills₄ (by rw [hfile₂]; simpa using hne)
  exact Ends.pure _ ⟨h.push entry hdata₄ hindex₄,
    (hfills.mono hsub).trans ((hfills₃.trans hfills₄).mono hsub'), hfile₂, hfile₄, rfl, rfl⟩

/-- Two files under the temporary names of a generation, and nothing else new in a directory. -/
def drafted (generation : UInt64) (number : Nat) (dir : Directory) : Directory :=
  (dir.put (temporary .data generation) (.file number)).put (temporary .index generation)
    (.file (number + 1))

theorem get?_drafted_data (generation : UInt64) (number : Nat) (dir : Directory) :
    (drafted generation number dir).get? (temporary .data generation) = some (.file number) := by
  rw [drafted, Directory.get?_put, if_neg (temporary_data_ne_index generation), Directory.get?_put,
    if_pos rfl]

theorem get?_drafted_index (generation : UInt64) (number : Nat) (dir : Directory) :
    (drafted generation number dir).get? (temporary .index generation) = some (.file (number + 1)) := by
  rw [drafted, Directory.get?_put, if_pos rfl]

/-- A builder that has taken the given entries, in a directory that has come to nothing else than its two
temporary files since the start. -/
structure AtWork (start : Disk) (dir : Directory) (generation : UInt64) (sync : Bool) (builder : Builder)
    (entries : List Entry) (disk : Disk) : Prop where
  numbered : builder.generation = generation
  syncs : builder.sync = sync
  tracks : builder.Tracks disk.snapshot entries
  ascending : Ascending entries
  data : builder.data.file = start.contents.size
  index : builder.index.file = start.contents.size + 1
  size : disk.contents.size = start.contents.size + 2
  kept : ∀ number < start.contents.size, disk.contents.get number = start.contents.get number
  became : start.Became (drafted generation start.contents.size dir) disk.contents disk

/-- **A builder at work takes an entry** that comes after those taken. -/
theorem AtWork.ends_push (h : AtWork start dir generation sync builder entries disk) {entry : Entry}
    (hafter : ∀ earlier ∈ entries, earlier.key < entry.key) :
    Ends (builder.push entry) disk fun builder' after =>
      AtWork start dir generation sync builder' (entries ++ [entry]) after := by
  refine (Builder.ends_push h.tracks (by rw [h.data, h.size]; omega) (by rw [h.index, h.size]; omega)
    (by rw [h.data, h.index]; omega) entry).mono ?_
  rintro builder' after ⟨htracks, hfills, hdata, hindex, hgeneration, hsync⟩
  refine ⟨hgeneration.trans h.numbered, hsync.trans h.syncs, htracks, ?_, hdata.trans h.data,
    hindex.trans h.index, hfills.size.trans h.size, fun number hlt => ?_, hfills.became h.became⟩
  · refine List.pairwise_append.2 ⟨h.ascending, by simp, fun earlier hmem later hlater => ?_⟩
    exact List.mem_singleton.1 hlater ▸ hafter earlier hmem
  · have hother : number ∉ [builder.data.file, builder.index.file] := by
      simp [h.data, h.index]
      omega
    rw [hfills.kept number hother, h.kept number hlt]

/-- **A builder that is offered entries** takes them up to the first one that is out of order. -/
theorem ends_addAll (h : AtWork start dir generation sync builder entries disk) (offered : List Entry) :
    Ends (builder.addAll offered) disk fun result after =>
      AtWork start dir generation sync result.1 (taking entries offered) after ∧
      (result.2 = none ↔ taking entries offered = entries ++ offered) := by
  induction offered generalizing builder entries disk with
  | nil => exact Ends.pure _ ⟨h, by simp [taking]⟩
  | cons entry rest ih =>
    rcases h.tracks.refusal?_eq h.ascending entry with ⟨hafter, hnone⟩ | ⟨last, hlast, hnot, hrefused⟩
    · rw [addAll, hnone, taking, if_pos hafter]
      refine Ends.bind (h.ends_push hafter) ?_
      rintro builder' after hwork
      refine (ih hwork).mono ?_
      rintro result done ⟨hwork', hall⟩
      rw [List.append_assoc, List.singleton_append] at hall
      exact ⟨hwork', hall⟩
    · have hstops : ¬ ∀ earlier ∈ entries, earlier.key < entry.key := fun hafter =>
        hnot (hafter last hlast)
      rw [addAll, hrefused, taking, if_neg hstops]
      exact Ends.pure _ ⟨h, by simp⟩

/-- **A call is answered** without a refusal exactly if all its entries are taken. -/
theorem ends_answer (h : AtWork start dir generation sync builder entries disk) (call : Call) :
    Ends (builder.answer call) disk fun result after =>
      AtWork start dir generation sync result.1 (call.extend entries) after ∧
      (result.2 = none ↔ call.extend entries = entries ++ call.offered) := by
  cases call with
  | addAll offered => exact ends_addAll h offered
  | add entry =>
    -- To add one entry is to offer a list of one.
    have hone : (builder.answer (.add entry)).run disk = (builder.addAll [entry]).run disk := by
      rw [answer, addAll]
      cases hrefusal : builder.refusal? entry with
      | some error => simp only [add, hrefusal]; rfl
      | none => simp only [add, hrefusal]; rfl
    exact Ends.of_run_eq hone (ends_addAll h [entry])

/-- **All calls are answered** one after the other. Induction over the calls. -/
theorem ends_answerAll (h : AtWork start dir generation sync builder entries disk) (calls : List Call) :
    Ends (builder.answerAll calls) disk fun last after =>
      AtWork start dir generation sync last (calls.foldl Call.extend entries) after := by
  induction calls generalizing builder entries disk with
  | nil => exact Ends.pure _ h
  | cons call rest ih =>
    refine Ends.bind (ends_answer h call) ?_
    rintro ⟨next, refusal⟩ after ⟨hwork, -⟩
    exact ih hwork

/-! ## Starting -/

/-- A directory in which the temporary names of a generation are free and short enough. -/
structure Admits (start : Disk) (generation : UInt64) (dir : Directory) : Prop where
  folder : start.folder = .ok dir
  free : ∀ half, dir.get? (temporary half generation) = none
  fits : ∀ half, start.fits (temporary half generation) = true

/-- The second file is created beside the first one; if it cannot be, since its name is taken or too long, the
first one is taken away. -/
theorem ends_createIndex {created : Disk} (hfolder : disk.folder = .ok dir)
    (hnone : dir.get? (temporary .data generation) = none)
    (hfits : disk.fits (temporary .data generation) = true)
    (hfree : dir.file? (temporary .index generation) = none)
    (hcreated : disk.Became (dir.put (temporary .data generation) (.file disk.contents.size))
      (disk.contents.add []).2 created) :
    Ends (Disk.orElse (Disk.create (temporary .index generation))
        (Disk.attempt (.unlink (temporary .data generation)))).run created
      fun result after => match result with
        | .ok index => index = disk.contents.size + 1 ∧ Admits disk generation dir ∧
            disk.Became (drafted generation disk.contents.size dir)
              ((disk.contents.add []).2.add []).2 after
        | .error _ => disk.Unchanged after ∧ ∀ dir, ¬ Admits disk generation dir := by
  have hne := temporary_data_ne_index generation
  have hsize : created.contents.size = disk.contents.size + 1 := by
    rw [hcreated.contents_eq, Contents.size_add]
  refine Ends.orElse (Disk.ends_create fun _ => ?_) ?_ ?_
  · rw [Disk.names_of_folder hcreated.folder, Directory.file?, Directory.get?_put, if_neg hne.symm]
    exact hfree
  · rintro index after ⟨rfl, hfits', dir', hfolder', hnone', hbecame⟩
    cases hcreated.folder.symm.trans hfolder'
    rw [Directory.get?_put, if_neg hne.symm] at hnone'
    rw [hcreated.fits] at hfits'
    refine ⟨hsize, ⟨hfolder, fun half => ?_, fun half => ?_⟩, ?_⟩
    · cases half
      · exact hnone
      · exact hnone'
    · cases half
      · exact hfits
      · exact hfits'
    · rw [drafted, ← hsize, ← hcreated.contents_eq]
      exact hcreated.trans hbecame
  · rintro error after ⟨rfl, hreason⟩
    refine (hcreated.ends_unlink hfits (Disk.not_folder_put dir _ _)).mono fun _ done hdone =>
      ⟨⟨?_, ?_⟩, fun dir' hadmits => ?_⟩
    · rw [hdone.folder, Directory.erase_put_self, Directory.erase_of_free hnone, hfolder]
    · intro number hlt
      rw [hdone.contents_eq, Contents.get_add_of_lt hlt]
    · cases hfolder.symm.trans hadmits.folder
      refine hreason _ (by rw [hcreated.fits, hadmits.fits]) hcreated.folder ?_
      rw [Directory.get?_put, if_neg hne.symm, hadmits.free]

/-- Two files that were just created are empty, and every other file is as it was. -/
theorem carries_drafted {both : Disk} (hboth : disk.Became (drafted generation disk.contents.size dir)
    ((disk.contents.add []).2.add []).2 both) :
    (Stream.ofFile disk.contents.size).Carries both.snapshot (temporary .data generation) [] ∧
    (Stream.ofFile (disk.contents.size + 1)).Carries both.snapshot (temporary .index generation) [] ∧
    both.contents.size = disk.contents.size + 2 ∧
    ∀ number < disk.contents.size, both.contents.get number = disk.contents.get number := by
  have hsize := Contents.size_add disk.contents []
  have hnames := Disk.names_of_folder hboth.folder
  have hget : ∀ number, both.contents.get number = ((disk.contents.add []).2.add []).2.get number :=
    fun number => by rw [hboth.contents_eq]
  refine ⟨Stream.carries_ofFile (by rw [hnames, get?_drafted_data]) ?_,
    Stream.carries_ofFile (by rw [hnames, get?_drafted_index]) ?_, ?_, fun number hlt => ?_⟩
  · refine (hget _).trans ?_
    rw [Contents.get_add_of_lt (by omega)]
    exact Contents.get_add_self disk.contents []
  · refine (hget _).trans ?_
    rw [← hsize]
    exact Contents.get_add_self (disk.contents.add []).2 []
  · rw [hboth.contents_eq, Contents.size_add, hsize]
  · rw [hget, Contents.get_add_of_lt (by omega), Contents.get_add_of_lt hlt]

/-- **A builder that is started** is at work, with nothing taken; if it cannot be, since the directory does not
admit it, nothing has changed. -/
theorem ends_start (generation : UInt64) (sync : Bool)
    (hfree : ∀ half, disk.snapshot.names.file? (temporary half generation) = none) :
    Ends (Builder.start generation sync).run disk fun result after => match result with
      | .ok builder => ∃ dir, Admits disk generation dir ∧
          AtWork disk dir generation sync builder [] after
      | .error _ => disk.Unchanged after ∧ ∀ dir, ¬ Admits disk generation dir := by
  refine Ends.andThen (Disk.ends_create fun _ => hfree .data) ?_ ?_
  · rintro data created ⟨rfl, hfits, dir, hfolder, hnone, hcreated⟩
    have hfree' : dir.file? (temporary .index generation) = none := by
      rw [← Disk.names_of_folder hfolder]
      exact hfree .index
    refine Ends.andThen (ends_createIndex hfolder hnone hfits hfree' hcreated) ?_ ?_
    · rintro index both ⟨rfl, hadmits, hboth⟩
      obtain ⟨hdata, hindex, hsize, hkept⟩ := carries_drafted hboth
      have hmade : disk.contents.size + 1 < both.contents.size := by omega
      -- The index begins with a slot before there is any entry.
      refine Ends.liftThen (Stream.ends_write hindex hmade (Layout.slotBytes 0)) ?_
      rintro stream after ⟨hfills, hfile, hstream⟩
      refine Ends.pure _ ⟨dir, hadmits, rfl, rfl, ⟨?_, ?_, rfl, rfl, rfl, rfl⟩, List.Pairwise.nil, rfl,
        hfile, hfills.size.trans hsize, fun number hlt => ?_, hfills.became hboth⟩
      · exact hdata.fills hfills (by simp [Stream.ofFile])
      · simpa [Layout.index, Layout.indexFrom] using hstream
      · rw [hfills.kept number (by simp [Stream.ofFile]; omega), hkept number hlt]
    · rintro error after hunchanged
      exact hunchanged
  · rintro error after ⟨rfl, hreason⟩
    exact ⟨.refl _, fun dir hadmits =>
      hreason dir (hadmits.fits .data) hadmits.folder (hadmits.free .data)⟩

/-! ## Ending -/

/-- The files of a builder hold the layout of its entries, and every other file is as it was. -/
structure Complete (start : Disk) (entries : List Entry) (contents : Contents) : Prop where
  data : contents.get start.contents.size = Layout.data entries
  index : contents.get (start.contents.size + 1) = Layout.index entries
  kept : ∀ number < start.contents.size, contents.get number = start.contents.get number

/-- Both streams of a builder, passed on, leave all that was written in its files. -/
theorem ends_flushBoth (h : AtWork start dir generation sync builder entries disk) :
    Ends (do let _ ← builder.data.flush; builder.index.flush) disk fun _ after =>
      Complete start entries after.contents ∧
      start.Became (drafted generation start.contents.size dir) after.contents after := by
  have hne : builder.index.file ≠ builder.data.file := by rw [h.data, h.index]; omega
  refine Ends.bind (Stream.ends_flush h.tracks.data (by rw [h.data, h.size]; omega)) ?_
  rintro _ middle ⟨hfills, hdata, -⟩
  have hindex := h.tracks.index.fills hfills (by simpa using hne)
  refine (Stream.ends_flush hindex (by rw [hfills.size, h.index, h.size]; omega)).mono ?_
  rintro _ after ⟨hfills', hindex', -⟩
  refine ⟨⟨?_, ?_, fun number hlt => ?_⟩, hfills'.became (hfills.became h.became)⟩
  · rw [← h.data, hfills'.kept _ (by simpa using hne.symm), hdata]
  · rw [← h.index, hindex']
  · rw [hfills'.kept number (by simp [h.index]; omega), hfills.kept number (by simp [h.data]; omega),
      h.kept number hlt]

/-- Once nothing is left of what a builder made, nothing has changed. -/
theorem Complete.unchanged {after : Disk} (h : Complete start entries contents)
    (hfolder : start.folder = .ok dir) (hbecame : start.Became dir contents after) :
    start.Unchanged after :=
  ⟨hbecame.folder.trans hfolder.symm, fun number hlt => by rw [hbecame.contents_eq, h.kept number hlt]⟩

theorem erase_drafted (hfree : ∀ half, dir.get? (temporary half generation) = none) (number : Nat) :
    (drafted generation number dir).erase (temporary .data generation) =
      dir.put (temporary .index generation) (.file (number + 1)) := by
  rw [drafted, Directory.erase_put_of_ne _ (temporary_data_ne_index generation).symm,
    Directory.erase_put_self, Directory.erase_of_free (hfree .data)]

theorem erase_drafted_both (hfree : ∀ half, dir.get? (temporary half generation) = none) (number : Nat) :
    ((drafted generation number dir).erase (temporary .data generation)).erase
      (temporary .index generation) = dir := by
  rw [erase_drafted hfree, Directory.erase_put_self, Directory.erase_of_free (hfree .index)]

/-- No directory has a temporary name of a generation. -/
def Removable (generation : UInt64) (dir : Directory) : Prop :=
  ∀ half entries, dir.get? (temporary half generation) ≠ some (.folder entries)

theorem removable_drafted (generation : UInt64) (number : Nat) (dir : Directory) :
    Removable generation (drafted generation number dir) := by
  intro half entries
  cases half
  · rw [get?_drafted_data]
    rintro ⟨⟩
  · rw [get?_drafted_index]
    rintro ⟨⟩

theorem ends_removeTemporaries (h : start.Became dir contents disk)
    (hfits : ∀ half, start.fits (temporary half generation) = true)
    (hremovable : Removable generation dir) :
    Ends (removeTemporaries generation) disk fun _ after =>
      start.Became ((dir.erase (temporary .data generation)).erase (temporary .index generation))
        contents after := by
  refine Ends.bind (h.ends_unlink (hfits .data) (hremovable .data)) ?_
  rintro ⟨⟩ middle hmiddle
  refine hmiddle.ends_unlink (hfits .index) fun entries => ?_
  rw [Directory.get?_erase, if_neg (temporary_data_ne_index generation).symm]
  exact hremovable .index entries

/-- **Giving a builder up** leaves the directory as it was. -/
theorem ends_discard (hadmits : Admits start generation dir)
    (h : AtWork start dir generation sync builder entries disk) :
    Ends builder.discard disk fun _ after => start.Unchanged after := by
  show Ends ((do let _ ← builder.data.flush; builder.index.flush) >>= fun _ =>
    removeTemporaries builder.generation) disk _
  rw [h.numbered]
  refine Ends.bind (ends_flushBoth h) ?_
  rintro _ middle ⟨hcomplete, hmiddle⟩
  refine (ends_removeTemporaries hmiddle hadmits.fits (removable_drafted _ _ _)).mono ?_
  intro _ after hafter
  rw [erase_drafted_both hadmits.free] at hafter
  exact hcomplete.unchanged hadmits.folder hafter

/-- Two files under the final names of a generation, and nothing else new in a directory. -/
def published (generation : UInt64) (number : Nat) (dir : Directory) : Directory :=
  (dir.put (FileName.segment .data generation) (.file number)).put (FileName.segment .index generation)
    (.file (number + 1))

/-- A directory has one of the final names of a generation. -/
def Obstructed (generation : UInt64) (dir : Directory) : Prop :=
  ∃ half entries, dir.get? (FileName.segment half generation) = some (.folder entries)

/-- **Publishing** gives both files their final names. If it fails, since a directory has one of them, the files
that are left are gone once the temporary names are taken away. -/
theorem ends_publish (hadmits : Admits start generation dir)
    (hfinal : ∀ half, dir.file? (FileName.segment half generation) = none)
    (h : start.Became (drafted generation start.contents.size dir) contents disk) :
    Ends (publish generation).run disk fun result after => match result with
      | .ok _ => (∀ half, dir.get? (FileName.segment half generation) = none) ∧
          start.Became (published generation start.contents.size dir) contents after
      | .error _ => Obstructed generation dir ∧ ∃ left, start.Became left contents after ∧
          Removable generation left ∧
          (left.erase (temporary .data generation)).erase (temporary .index generation) = dir := by
  have hne := temporary_data_ne_index generation
  have hfits : ∀ half, start.fits (FileName.segment half generation) = true := fun half =>
    FileName.fitsIn_of_temporary (hadmits.fits half)
  have hdrafted : ∀ half, (drafted generation start.contents.size dir).get?
      (FileName.segment half generation) = dir.get? (FileName.segment half generation) := by
    intro half
    rw [drafted, Directory.get?_put, Directory.get?_put, if_neg (by simp [temporary]),
      if_neg (by simp [temporary])]
  refine Ends.andThen (h.ends_rename (by simp [temporary]) (get?_drafted_data generation _ dir)) ?_ ?_
  · rintro ⟨⟩ middle ⟨hfolder, hmiddle⟩
    rw [hdrafted] at hfolder
    have hfree := Disk.free_of_file? (hfinal .data) hfolder
    rw [erase_drafted hadmits.free] at hmiddle
    -- The first file has its final name; the second one still has its temporary one.
    have hindex : ((dir.put (temporary .index generation) (.file (start.contents.size + 1))).put
        (FileName.segment .data generation) (.file start.contents.size)).get?
          (temporary .index generation) = some (.file (start.contents.size + 1)) := by
      rw [Directory.get?_put, if_neg (by simp [temporary]), Directory.get?_put, if_pos rfl]
    refine Ends.orElse (hmiddle.ends_rename (by simp [temporary]) hindex) ?_ ?_
    · rintro ⟨⟩ after ⟨hfolder', hafter⟩
      rw [Directory.get?_put, if_neg (by simp), Directory.get?_put,
        if_neg (by simp [temporary])] at hfolder'
      rw [Directory.erase_put_of_ne _ (by simp [temporary]), Directory.erase_put_self,
        Directory.erase_of_free (hadmits.free .index)] at hafter
      refine ⟨fun half => ?_, hafter⟩
      cases half
      · exact hfree
      · exact Disk.free_of_file? (hfinal .index) hfolder'
    · rintro error after ⟨hafter, hreason⟩
      have hobstructed : Obstructed generation dir := by
        obtain ⟨entries, hentries⟩ := hreason (hadmits.fits .index) (hfits .index)
        rw [Directory.get?_put, if_neg (by simp), Directory.get?_put,
          if_neg (by simp [temporary])] at hentries
        exact ⟨.index, entries, hentries⟩
      refine (hafter.ends_unlink (hfits .data) (Disk.not_folder_put _ _ _)).mono fun _ done hdone => ?_
      rw [Directory.erase_put_self, Directory.erase_put_of_ne _ (by simp [temporary]),
        Directory.erase_of_free hfree] at hdone
      -- Of both files only the second one is left, under its temporary name.
      refine ⟨hobstructed, _, hdone, fun half entries => ?_, ?_⟩
      · cases half
        · rw [Directory.get?_put, if_neg hne, hadmits.free]
          rintro ⟨⟩
        · exact Disk.not_folder_put dir _ _ entries
      · rw [Directory.erase_put_of_ne _ hne.symm, Directory.erase_of_free (hadmits.free .data),
          Directory.erase_put_self, Directory.erase_of_free (hadmits.free .index)]
  · rintro error after ⟨hafter, hreason⟩
    obtain ⟨entries, hentries⟩ := hreason (hadmits.fits .data) (hfits .data)
    rw [hdrafted] at hentries
    exact ⟨⟨.data, entries, hentries⟩, _, hafter, removable_drafted _ _ _, erase_drafted_both hadmits.free _⟩

/-- Once both files of a builder have their final names, they are all that is new. -/
theorem Complete.gained {after : Disk} (h : Complete start entries contents)
    (hfolder : start.folder = .ok dir) (hfree : ∀ half, dir.get? (FileName.segment half generation) = none)
    (hbecame : start.Became (published generation start.contents.size dir) contents after) :
    start.Gained generation entries after := by
  have hindex : (dir.put (FileName.segment .data generation) (.file start.contents.size)).get?
      (FileName.segment .index generation) = none := by
    rw [Directory.get?_put, if_neg (by simp), hfree]
  refine ⟨⟨dir, hfolder, hfree, ?_⟩, ?_, ?_, fun number hlt => ?_⟩
  · rw [hbecame.folder, published, ← Directory.entries_put_of_free (hfree .data),
      ← Directory.entries_put_of_free hindex]
  · rw [hbecame.contents_eq, h.data]
  · rw [hbecame.contents_eq, h.index]
  · rw [hbecame.contents_eq, h.kept number hlt]

/-- **Either the names are published, or nothing is left,** since a directory has one of them. -/
theorem ends_publishOrRemove (hadmits : Admits start generation dir)
    (hfinal : ∀ half, dir.file? (FileName.segment half generation) = none)
    (hcomplete : Complete start entries contents)
    (h : start.Became (drafted generation start.contents.size dir) contents disk) :
    Ends (Disk.orElse (publish generation) (removeTemporaries generation)).run disk
      fun result after => match result with
        | .ok _ => start.Became (published generation start.contents.size dir) contents after ∧
            start.Gained generation entries after
        | .error _ => Obstructed generation dir ∧ start.Unchanged after := by
  refine Ends.orElse (ends_publish hadmits hfinal h) ?_ ?_
  · rintro ⟨⟩ after ⟨hfree, hafter⟩
    exact ⟨hafter, hcomplete.gained hadmits.folder hfree hafter⟩
  · rintro error after ⟨hobstructed, left, hafter, hremovable, hleft⟩
    refine (ends_removeTemporaries hafter hadmits.fits hremovable).mono ?_
    intro _ done hdone
    rw [hleft] at hdone
    exact ⟨hobstructed, hcomplete.unchanged hadmits.folder hdone⟩

/-- **What a builder leaves that is finished:** both files, or nothing if there are no entries or a directory
has one of its final names. If the directory cannot be synced, it fails once both files are in place. -/
theorem ends_finish (hadmits : Admits start generation dir)
    (hfinal : ∀ half, dir.file? (FileName.segment half generation) = none)
    (h : AtWork start dir generation sync builder entries disk) :
    Ends builder.finish.run disk fun result after => match result with
      | .ok (some info) => entries ≠ [] ∧ (sync = true → start.syncFault? = none) ∧
          info = (Segment.ofEntries generation entries).info ∧ start.Gained generation entries after
      | .ok none => entries = [] ∧ start.Unchanged after
      | .error error => (Obstructed generation dir ∧ start.Unchanged after) ∨ (sync = true ∧ entries ≠ [] ∧
          (∃ cause, start.syncFault? = some cause ∧ error = .io cause) ∧
          start.Gained generation entries after) := by
  obtain rfl := h.numbered
  obtain rfl := h.syncs
  unfold finish
  split
  · next hcount =>
    have hnone : entries = [] := List.length_eq_zero_iff.1 (h.tracks.count ▸ hcount)
    refine Ends.liftThen (ends_discard hadmits h) ?_
    rintro ⟨⟩ after hunchanged
    exact Ends.pure _ ⟨hnone, hunchanged⟩
  · next hcount =>
    have hsome : entries ≠ [] := by
      rintro rfl
      exact hcount h.tracks.count
    show Ends (liftM (do let _ ← builder.data.flush; builder.index.flush) >>= fun _ => do
        let dataLen ← liftM (Disk.fileLength builder.data.file)
        let indexLen ← liftM (Disk.fileLength builder.index.file)
        Disk.orElse (publish builder.generation) (removeTemporaries builder.generation)
        if builder.sync then
          Disk.sync
        return some (builder.info dataLen indexLen) : DiskM (Option SegmentMeta)).run disk _
    refine Ends.liftThen (ends_flushBoth h) ?_
    rintro _ flushed ⟨hcomplete, hflushed⟩
    have hinfo : builder.info (flushed.contents.get builder.data.file).length
        (flushed.contents.get builder.index.file).length =
          (Segment.ofEntries builder.generation entries).info := by
      rw [h.data, h.index, hcomplete.data, hcomplete.index, Segment.info_ofEntries, info, h.tracks.count,
        h.tracks.checksum]
      rfl
    refine Ends.liftThen (Disk.ends_fileLength builder.data.file) ?_
    rintro _ _ ⟨rfl, rfl⟩
    refine Ends.liftThen (Disk.ends_fileLength builder.index.file) ?_
    rintro _ flushed ⟨rfl, rfl⟩
    rw [hinfo]
    refine Ends.andThen (ends_publishOrRemove hadmits hfinal hcomplete hflushed) ?_ ?_
    · rintro ⟨⟩ placed ⟨hplaced, hgained⟩
      split
      · next hsync =>
        refine Ends.andThen (Disk.ends_sync hplaced.folder) ?_ ?_
        · rintro _ after ⟨rfl, hsynced⟩
          exact Ends.pure _ ⟨hsome, fun _ => hplaced.syncFault?_eq ▸ hsynced, rfl, hgained⟩
        · rintro error after ⟨rfl, hrefused⟩
          exact .inr ⟨hsync, hsome, hplaced.syncFault?_eq ▸ hrefused, hgained⟩
      · next hnot => exact Ends.pure _ ⟨hsome, fun hsync => absurd hsync hnot, rfl, hgained⟩
    · rintro error after hunchanged
      exact .inl hunchanged

/-! ## From first to last -/

/-- **A builder leaves all of its segment or nothing**, but for a sync that fails. In a directory where none of
the four names of its generation is a file's, it ends with the record of the entries accepted and two more
files that hold their layout, or the directory is as it was. If the directory cannot be synced, though, both
files are in place when that fails, and nothing takes them away. -/
theorem lifetime_leaves_all_or_nothing (generation : UInt64) (sync : Bool) (calls : List Call)
    (ending : Ending)
    (hfree : ∀ name ∈ FileName.ofGeneration generation, disk.snapshot.names.file? name = none) :
    Ends (lifetime generation sync calls ending).run disk fun result after => match result with
      | .ok (some info) => ending = .finish ∧ accepted calls ≠ [] ∧
          (sync = true → disk.syncFault? = none) ∧
          info = ⟨generation, .ofNat (accepted calls).length, .ofNat (Layout.data (accepted calls)).length,
            .ofNat (Layout.index (accepted calls)).length, some (Layout.data (accepted calls)).crc32⟩ ∧
          disk.Gained generation (accepted calls) after
      | .ok none => (ending = .drop ∨ accepted calls = []) ∧ disk.Unchanged after
      | .error error => disk.Unchanged after ∨ (sync = true ∧ ending = .finish ∧ accepted calls ≠ [] ∧
          (∃ cause, disk.syncFault? = some cause ∧ error = .io cause) ∧
          disk.Gained generation (accepted calls) after) := by
  have htemporary : ∀ half, disk.snapshot.names.file? (temporary half generation) = none := fun half =>
    hfree _ (FileName.mem_ofGeneration.2 ⟨half, .inr rfl⟩)
  refine Ends.andThen (ends_start generation sync htemporary) ?_ ?_
  · rintro builder started ⟨dir, hadmits, hwork⟩
    have hfinal : ∀ half, dir.file? (FileName.segment half generation) = none := by
      intro half
      rw [← Disk.names_of_folder hadmits.folder]
      exact hfree _ (FileName.mem_ofGeneration.2 ⟨half, .inl rfl⟩)
    refine Ends.liftThen (ends_answerAll hwork calls) ?_
    rintro last answered hwork'
    cases ending with
    | drop =>
      refine Ends.liftThen (ends_discard hadmits hwork') ?_
      rintro ⟨⟩ after hunchanged
      exact Ends.pure _ ⟨.inl rfl, hunchanged⟩
    | finish =>
      refine (ends_finish hadmits hfinal hwork').mono ?_
      rintro (error | _ | info) after hafter
      · rcases hafter with ⟨-, hunchanged⟩ | ⟨hsync', hsome, hfault, hgained⟩
        · exact .inl hunchanged
        · exact .inr ⟨hsync', rfl, hsome, hfault, hgained⟩
      · exact ⟨.inr hafter.1, hafter.2⟩
      · obtain ⟨hsome, hsynced, hinfo, hgained⟩ := hafter
        rw [Segment.info_ofEntries] at hinfo
        exact ⟨rfl, hsome, hsynced, hinfo, hgained⟩
  · rintro error after ⟨hunchanged, -⟩
    exact .inl hunchanged

/-- Calls of which the second is refused, and the third after its first entry. -/
def disordered : List Call :=
  [.add (.put [97] [49]), .add (.put [97] [50]), .addAll [.tombstone [98], .put [97] [], .put [99] []]]

/-- A directory with a file of its own, and what else is given. -/
def besides (others : List (String × Node)) : Disk :=
  .ofSnapshot ⟨⟨("notes", .file 0) :: others⟩, ⟨[[104, 105]]⟩⟩

/-- The entries accepted are put in place beside the file that was there. With a directory under one of the
final names nothing comes of the builder. -/
theorem lifetime_leaves_all_or_nothing_disordered :
    let record := (FileName.segment .index 2, Node.folder [])
    (∀ name ∈ FileName.ofGeneration 2, (besides []).snapshot.names.file? name = none ∧
      (besides [record]).snapshot.names.file? name = none) ∧
    accepted disordered = [.put [97] [49], .tombstone [98]] ∧
    (∃ info after, (lifetime 2 true disordered .finish).run.run (besides []) = (.ok (some info), after) ∧
      info.entryCount = 2 ∧ (besides []).Gained 2 [.put [97] [49], .tombstone [98]] after) ∧
    ∃ error after, (lifetime 2 true disordered .finish).run.run (besides [record]) =
      (.error error, after) ∧ (besides [record]).Unchanged after := by
  intro record
  have hfree : ∀ name ∈ FileName.ofGeneration 2, (besides []).snapshot.names.file? name = none ∧
      (besides [record]).snapshot.names.file? name = none := by decide +kernel
  have haccepted : accepted disordered = [.put [97] [49], .tombstone [98]] := by decide +kernel
  have hplaced := lifetime_leaves_all_or_nothing 2 true disordered .finish fun name hmem =>
    (hfree name hmem).1
  have hblocked := lifetime_leaves_all_or_nothing 2 true disordered .finish fun name hmem =>
    (hfree name hmem).2
  have hok : ((lifetime 2 true disordered .finish).run.run (besides [])).1.toOption.join.isSome = true := by
    decide +kernel
  have herror : ((lifetime 2 true disordered .finish).run.run (besides [record])).1.isOk = false := by
    decide +kernel
  unfold Ends at hplaced hblocked
  rw [haccepted] at hplaced hblocked
  refine ⟨hfree, haccepted, ?_, ?_⟩
  · cases hrun : (lifetime 2 true disordered .finish).run.run (besides []) with
    | mk result after =>
      rw [hrun] at hplaced hok
      rcases result with error | _ | info
      · cases hok
      · cases hok
      · obtain ⟨-, -, -, hinfo, hgained⟩ := hplaced
        exact ⟨info, after, rfl, by rw [hinfo]; rfl, hgained⟩
  · cases hrun : (lifetime 2 true disordered .finish).run.run (besides [record]) with
    | mk result after =>
      rw [hrun] at hblocked herror
      rcases result with error | info
      · refine ⟨error, after, rfl, hblocked.resolve_right ?_⟩
        rintro ⟨-, -, -, ⟨cause, hfault, -⟩, -⟩
        cases hfault
      · cases herror

/-- An empty directory that is closed to readers, so that names in it can be reached but it cannot be
opened. -/
def closed : Disk := { Disk.ofSnapshot ⟨.empty, .empty⟩ with barred := some .denied }

/-- A builder with an entry neither leaves a directory as it was nor gives the record of a segment in it,
though none of its names is a file's. -/
def FailsInPlace (disk : Disk) : Prop :=
  (∀ name ∈ FileName.ofGeneration 1, disk.snapshot.names.file? name = none) ∧
    ¬ Ends (lifetime 1 true [.add (.put [97] [49])] .finish).run disk fun result after =>
      disk.Unchanged after ∨
        ∃ info, result = .ok (some info) ∧ disk.Gained 1 [.put [97] [49]] after

theorem failsInPlace_of_left {disk : Disk} (hempty : disk.folder = .ok .empty)
    (herror : ((lifetime 1 true [.add (.put [97] [49])] .finish).run.run disk).1.isOk = false)
    (hleft : ((lifetime 1 true [.add (.put [97] [49])] .finish).run.run disk).2.snapshot.names.fileNames =
      ["segment_000001.index", "segment_000001.data"]) : FailsInPlace disk := by
  refine ⟨fun name _ => by rw [Disk.names_of_folder hempty]; rfl, ?_⟩
  rintro (hunchanged | ⟨info, hinfo, -⟩)
  · have hsame := Disk.names_of_folder (hunchanged.folder.trans hempty)
    rw [show _ = _ from hsame] at hleft
    cases hleft
  · rw [show ((lifetime 1 true [.add (.put [97] [49])] .finish).run.run disk).1 = _ from hinfo] at herror
    cases herror

/-- **Syncing may fail late.** In a directory that cannot be opened, be it the one that the empty path names or
one that is closed to readers, a builder with an entry is finished with an error and leaves both files in
place. -/
theorem sync_fails_in_place : FailsInPlace (Volume.empty.disk "") ∧ FailsInPlace closed :=
  ⟨failsInPlace_of_left rfl (by decide +kernel) (by decide +kernel),
    failsInPlace_of_left rfl (by decide +kernel) (by decide +kernel)⟩

end Builder

end LsmTree
