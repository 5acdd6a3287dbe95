import LsmTree.Proofs.OpeningEffects

/-!
# What building and committing can touch

A segment is built under the four names of its generation, and the manifest is stored under two names.
Nothing else in the directory is touched, and no file that was there is written into. This holds wherever
the directory is, whatever it holds, and whether the operation succeeds or fails:

* **`Snapshot.Touched`**, **`Disk.Touched`** — a directory in which only some names have come to new files
  or have lost what they led to;
* **`Disk.Touched.ends_create`**, **`ends_write`**, **`ends_rename`**, **`ends_unlink`** — the steps that
  keep within it, counted from one fixed start: a file made since then may be written, moved and taken away;
* **`Builder.touched_start`**, **`touched_push`**, **`touched_discard`**, **`touched_finish`** — a builder,
  whose two files were made since the start;
* **`Manager.touched_build`**, **`Manifest.touched_store`** — a whole segment, and a whole manifest.
-/

namespace LsmTree

/-! ## Directories that differ under some names -/

/-- Nothing has changed but what some names lead to, none of them the name of a directory. They lead to
files made since, if they lead anywhere; all older files have the octets that they had. -/
structure Snapshot.Touched (mine : String → Prop) (before after : Snapshot) : Prop where
  size : before.contents.size ≤ after.contents.size
  kept : ∀ number < before.contents.size, after.contents.get number = before.contents.get number
  get : ∀ name, after.names.get? name = before.names.get? name ∨
    mine name ∧ (∀ entries, before.names.get? name ≠ some (.folder entries)) ∧
      ∀ node, after.names.get? name = some node → ∃ number, node = .file number ∧
        before.contents.size ≤ number ∧ number < after.contents.size

namespace Snapshot.Touched

variable {mine : String → Prop} {before after : Snapshot} {name : String}

/-- Names that lead to files that were made still do. -/
theorem whole (h : Touched mine before after) (hwhole : before.Whole) : after.Whole := by
  intro name number hfile
  rw [file?_eq_some] at hfile
  rcases h.get name with hsame | ⟨-, -, hnew⟩
  · have hbefore : before.names.file? name = some number := by
      rw [file?_eq_some, ← hsame, hfile]
    exact Nat.lt_of_lt_of_le (hwhole name number hbefore) h.size
  · obtain ⟨_, hnode, -, hlt⟩ := hnew _ hfile
    cases hnode
    exact hlt

/-- A name that is not among those touched stays without a file. -/
theorem noFile (h : Touched mine before after) (hname : ¬ mine name)
    (hnone : before.names.file? name = none) : after.names.file? name = none := by
  rcases h.get name with hsame | ⟨hmine, -⟩
  · rw [Directory.file?, hsame, ← Directory.file?, hnone]
  · exact absurd hmine hname

/-- **Files are spared** if none of the names touched was that of a file. -/
theorem file?_kept (h : Touched mine before after) (hwhole : before.Whole)
    (hfree : ∀ name, mine name → before.names.file? name = none) {bytes : Bytes}
    (hfile : before.file? name = some bytes) : after.file? name = some bytes := by
  obtain ⟨number, hnumber, rfl⟩ := Option.map_eq_some_iff.1 hfile
  have hsame : after.names.file? name = before.names.file? name := by
    rcases h.get name with hsame | ⟨hmine, -⟩
    · rw [Directory.file?, hsame, ← Directory.file?]
    · rw [hfree name hmine] at hnumber
      cases hnumber
  rw [← hfile]
  exact hwhole.file?_eq hsame h.kept

/-- Directories stay. -/
theorem folder (h : Touched mine before after) {entries : List (String × Node)}
    (hfolder : before.names.get? name = some (.folder entries)) :
    after.names.get? name = some (.folder entries) := by
  rcases h.get name with hsame | ⟨-, hnot, -⟩
  · rw [hsame, hfolder]
  · exact absurd hfolder (hnot entries)

end Snapshot.Touched

/-- A directory was touched under some names only; it is where it was, and can be reached if it could be. -/
structure Disk.Touched (mine : String → Prop) (start after : Disk) : Prop where
  room : after.room = start.room
  reachable : ∀ dir, start.folder = .ok dir → ∃ dir', after.folder = .ok dir'
  snapshot : start.snapshot.Touched mine after.snapshot

namespace Disk.Touched

variable {mine other : String → Prop} {start disk after : Disk} {name source target : String}

theorem refl (mine : String → Prop) (disk : Disk) : Touched mine disk disk where
  room := rfl
  reachable := fun dir hdir => ⟨dir, hdir⟩
  snapshot := ⟨Nat.le_refl _, fun _ _ => rfl, fun _ => .inl rfl⟩

theorem stands (h : Touched mine start disk) : start.Stands disk := by
  intro dir hdir
  obtain ⟨dir', hdir'⟩ := h.reachable dir hdir
  refine ⟨dir', hdir', fun name entries hfolder => ?_⟩
  rw [← names_of_folder hdir] at hfolder
  rw [← names_of_folder hdir']
  exact h.snapshot.folder hfolder

theorem fits (h : Touched mine start disk) (name : String) : disk.fits name = start.fits name := by
  rw [Disk.fits, h.room, Disk.fits]

/-- What is no directory's name was none at the start. -/
theorem notFolder (h : Touched mine start disk)
    (hnot : ∀ entries, disk.snapshot.names.get? name ≠ some (.folder entries)) :
    ∀ entries, start.snapshot.names.get? name ≠ some (.folder entries) :=
  fun entries hentries => hnot entries (h.snapshot.folder hentries)

/-- One more change keeps within it if it changes no file that there was at the start, and lets only names
that may be touched, and that are no directories', lead to files made since the start. -/
theorem step (h : Touched mine start disk) (hroom : after.room = disk.room)
    (hreachable : ∀ dir, disk.folder = .ok dir → ∃ dir', after.folder = .ok dir')
    (hsize : disk.contents.size ≤ after.contents.size)
    (hkept : ∀ number < start.contents.size, after.contents.get number = disk.contents.get number)
    (hget : ∀ name, after.snapshot.names.get? name = disk.snapshot.names.get? name ∨
      mine name ∧ (∀ entries, disk.snapshot.names.get? name ≠ some (.folder entries)) ∧
        ∀ node, after.snapshot.names.get? name = some node → ∃ number, node = .file number ∧
          start.contents.size ≤ number ∧ number < after.contents.size) :
    Touched mine start after where
  room := hroom.trans h.room
  reachable := by
    intro dir hdir
    obtain ⟨dir', hdir'⟩ := h.reachable dir hdir
    exact hreachable dir' hdir'
  snapshot := by
    refine ⟨Nat.le_trans h.snapshot.size hsize, ?_, ?_⟩
    · intro number hlt
      exact (hkept number hlt).trans (h.snapshot.kept number hlt)
    · intro name
      rcases hget name with hsame | ⟨hmine, hnot, hnew⟩
      · rcases h.snapshot.get name with hbefore | ⟨hmine, hnot, hnew⟩
        · exact .inl (hsame.trans hbefore)
        · refine .inr ⟨hmine, hnot, fun node hnode => ?_⟩
          obtain ⟨number, hfile, hle, hlt⟩ := hnew node (hsame ▸ hnode)
          exact ⟨number, hfile, hle, Nat.lt_of_lt_of_le hlt hsize⟩
      · exact .inr ⟨hmine, h.notFolder hnot, hnew⟩

theorem mono (h : Touched mine start disk) (himp : ∀ name, mine name → other name) :
    Touched other start disk where
  room := h.room
  reachable := h.reachable
  snapshot := by
    refine ⟨h.snapshot.size, h.snapshot.kept, fun name => ?_⟩
    rcases h.snapshot.get name with hsame | ⟨hmine, hrest⟩
    · exact .inl hsame
    · exact .inr ⟨himp name hmine, hrest⟩

theorem trans (h : Touched mine start disk) (h' : Touched mine disk after) : Touched mine start after := by
  refine h.step h'.room h'.reachable h'.snapshot.size ?_ fun name => ?_
  · intro number hlt
    exact h'.snapshot.kept number (Nat.lt_of_lt_of_le hlt h.snapshot.size)
  · rcases h'.snapshot.get name with hsame | ⟨hmine, hnot, hnew⟩
    · exact .inl hsame
    · refine .inr ⟨hmine, hnot, fun node hnode => ?_⟩
      obtain ⟨number, hfile, hle, hlt⟩ := hnew node hnode
      exact ⟨number, hfile, Nat.le_trans h.snapshot.size hle, hlt⟩

/-- Taking files away is such a change, if their names may be touched. -/
theorem pruned {gone : String → Prop} (h : Touched mine start disk) (hpruned : Pruned gone disk after)
    (hgone : ∀ name, gone name → mine name) : Touched mine start after := by
  refine h.step hpruned.room hpruned.reachable (Nat.le_of_eq (congrArg _ hpruned.contents).symm) ?_ ?_
  · intro number _
    rw [hpruned.contents]
  · intro name
    rcases hpruned.get name with hsame | ⟨hname, hnone, number, hfile⟩
    · exact .inl hsame
    · refine .inr ⟨hgone name hname, ?_, ?_⟩
      · rw [hfile]
        rintro entries ⟨⟩
      · rw [hnone]
        rintro node ⟨⟩

/-! ### Steps -/

/-- A file that is found under a name where there was none at the start was made since. -/
theorem new_of_file (h : Touched mine start disk) (hfree : start.snapshot.names.file? name = none)
    {number : Nat} (hfile : disk.snapshot.names.get? name = some (.file number)) :
    start.contents.size ≤ number ∧ number < disk.contents.size := by
  rcases h.snapshot.get name with hsame | ⟨-, -, hnew⟩
  · have hfound : start.snapshot.names.file? name = some number := by
      rw [Snapshot.file?_eq_some, ← hsame, hfile]
    rw [hfree] at hfound
    cases hfound
  · obtain ⟨_, hnode, hle, hlt⟩ := hnew _ hfile
    cases hnode
    exact ⟨hle, hlt⟩

/-- **Creating a file** under a name that had none at the start. The file was made since, and the name is
no directory's. -/
theorem ends_create (h : Touched mine start disk) (hmine : start.fits name = true →
      mine name ∧ start.snapshot.names.file? name = none) :
    Ends (Disk.create name).run disk fun result after => Touched mine start after ∧
      ∀ number, result = .ok number → start.contents.size ≤ number ∧
        ∀ entries, start.snapshot.names.get? name ≠ some (.folder entries) := by
  simp only [Ends, Disk.create, Disk.perform, Mutation.names, ExceptT.run, ExceptT.mk, StateT.run]
  cases hreach : disk.reach [name] with
  | error cause => exact ⟨h, by rintro _ ⟨⟩⟩
  | ok dir =>
    obtain ⟨hfits, hfolder⟩ := reach_eq_ok.1 hreach
    have hnames := names_of_folder hfolder
    obtain ⟨hname, hfree⟩ := hmine (by rw [← h.fits, hfits name List.mem_cons_self])
    dsimp only
    rw [Snapshot.create]
    cases hget : dir.get? name with
    | none =>
      have hnot : ∀ entries, start.snapshot.names.get? name ≠ some (.folder entries) :=
        h.notFolder fun entries => by simp [hnames, hget]
      refine ⟨h.step rfl (fun _ _ => ⟨_, rfl⟩) ?_ ?_ ?_, ?_⟩
      · exact Nat.le_of_lt (Nat.lt_of_lt_of_eq (Nat.lt_succ_self _) (Contents.size_add _ _).symm)
      · intro number hlt
        exact Contents.get_add_of_lt (Nat.lt_of_lt_of_le hlt h.snapshot.size) _
      · intro other
        show (dir.put name (.file disk.contents.size)).get? other = _ ∨ _
        rw [Directory.get?_put, hnames]
        by_cases hother : other = name
        · refine .inr ⟨hother ▸ hname, by simp [hother, hget], fun node hnode => ?_⟩
          have hsize : disk.contents.size < (disk.contents.add []).2.size := by
            rw [Contents.size_add]
            exact Nat.lt_succ_self _
          change (dir.put name (.file disk.contents.size)).get? other = some node at hnode
          rw [Directory.get?_put, if_pos hother] at hnode
          exact ⟨_, (Option.some.inj hnode).symm, h.snapshot.size, hsize⟩
        · exact .inl (if_neg hother)
      · rintro _ ⟨⟩
        exact ⟨h.snapshot.size, hnot⟩
    | some node =>
      cases node with
      | folder entries => exact ⟨h, by rintro _ ⟨⟩⟩
      | file number =>
        obtain ⟨hle, -⟩ := h.new_of_file hfree (hnames ▸ hget)
        refine ⟨h.step rfl (fun _ _ => ⟨_, rfl⟩) ?_ ?_ ?_, ?_⟩
        · exact Nat.le_of_eq (List.length_set ..).symm
        · intro older hlt
          exact Contents.get_set_of_ne (by omega) _ _
        · intro other
          rw [hnames]
          exact .inl rfl
        · rintro _ ⟨⟩
          exact ⟨hle, h.notFolder fun entries => by simp [hnames, hget]⟩

/-- **Writing** into a file made since the start. -/
theorem ends_write (h : Touched mine start disk) {file : Nat} (hnew : start.contents.size ≤ file)
    (offset : Nat) (bytes : Bytes) :
    Ends (Disk.write file offset bytes) disk fun _ after => Touched mine start after := by
  refine h.step rfl (fun dir hdir => ⟨dir, hdir⟩) ?_ ?_ fun _ => .inl rfl
  · exact Nat.le_of_eq (List.length_set ..).symm
  · intro number hlt
    exact Contents.get_write_of_ne (by omega) _ _ _

/-- **Moving a file** made since the start over what is no directory. -/
theorem ends_rename (h : Touched mine start disk) (hne : source ≠ target)
    (hsource : start.fits source = true → mine source ∧ start.snapshot.names.file? source = none)
    (htarget : start.fits target = true → mine target)
    (hnot : ∀ entries, start.snapshot.names.get? source ≠ some (.folder entries)) :
    Ends (Disk.mutate (.rename source target)).run disk fun _ after => Touched mine start after := by
  simp only [Ends, Disk.mutate, Disk.perform, Mutation.names, ExceptT.run, ExceptT.mk, StateT.run]
  cases hreach : disk.reach [source, target] with
  | error cause => exact h
  | ok dir =>
    obtain ⟨hfits, hfolder⟩ := reach_eq_ok.1 hreach
    have hnames := names_of_folder hfolder
    obtain ⟨hmine, hfree⟩ := hsource (by rw [← h.fits, hfits source (by simp)])
    have hmine' := htarget (by rw [← h.fits, hfits target (by simp)])
    dsimp only
    rw [Snapshot.apply, Directory.rename]
    dsimp only
    cases hget : dir.get? source with
    | none => exact h
    | some node =>
      -- What was no directory's name at the start is that of a new file.
      obtain ⟨number, rfl⟩ : ∃ number, node = .file number := by
        cases node with
        | file number => exact ⟨number, rfl⟩
        | folder entries =>
          rcases h.snapshot.get source with hsame | ⟨-, -, hnew⟩
          · exact absurd (hsame ▸ hnames ▸ hget) (hnot entries)
          · obtain ⟨number, hnode, -⟩ := hnew _ (hnames ▸ hget)
            exact ⟨number, hnode⟩
      obtain ⟨hle, hlt⟩ := h.new_of_file hfree (hnames ▸ hget)
      dsimp only
      rw [if_neg hne]
      cases hrefused : Node.refusedOver? (.file number) (dir.get? target) with
      | some cause => exact h
      | none =>
        have hfile : ∀ entries, dir.get? target ≠ some (.folder entries) := by
          intro entries hentries
          rw [hentries] at hrefused
          cases hrefused
        refine h.step rfl (fun _ _ => ⟨_, rfl⟩) (Nat.le_refl _) (fun _ _ => rfl) fun other => ?_
        show ((dir.erase source).put target (.file number)).get? other = _ ∨ _ ∧ _ ∧
          ∀ node, ((dir.erase source).put target (.file number)).get? other = some node → _
        rw [Directory.get?_put, Directory.get?_erase, hnames]
        by_cases hother : other = target
        · refine .inr ⟨hother ▸ hmine', hother ▸ hfile, fun node hnode => ?_⟩
          rw [if_pos hother] at hnode
          exact ⟨number, (Option.some.inj hnode).symm, hle, hlt⟩
        · rw [if_neg hother]
          by_cases hother' : other = source
          · refine .inr ⟨hother' ▸ hmine, by simp [hother', hget], fun node hnode => ?_⟩
            rw [if_pos hother'] at hnode
            cases hnode
          · exact .inl (if_neg hother')

/-- **Taking a name away.** -/
theorem ends_unlink (h : Touched mine start disk) (hmine : start.fits name = true → mine name) :
    Ends (Disk.attempt (.unlink name)) disk fun _ after => Touched mine start after := by
  cases hfits : disk.fits name with
  | true =>
    refine (Disk.ends_unlink name).mono fun _ after hafter => h.pruned hafter.1 ?_
    rintro _ rfl
    exact hmine (by rw [← h.fits, hfits])
  | false =>
    have hreach : disk.reach [name] = .error .nameTooLong := by simp [Disk.reach, hfits]
    simp only [Ends, Disk.attempt, Disk.run, Disk.mutate, Disk.perform, Mutation.names, ExceptT.run,
      ExceptT.mk, StateT.run]
    rw [hreach]
    exact h

/-- What changes nothing touches nothing. -/
theorem ends_looks (h : Touched mine start disk) {α : Type} {operation : DiskM α} {found : α → Prop}
    (hlooks : Looks operation disk found) :
    Ends operation.run disk fun _ after => Touched mine start after := by
  refine hlooks.mono fun _ after hafter => ?_
  rw [hafter.1]
  exact h

end Disk.Touched

/-! ## Writing a segment

A builder at work is followed by what is known of its two files: they were made since the start, so that it
may write into them, and no directory has one of their names. -/

section Segments

variable {mine : String → Prop} {start disk : Disk} {generation : UInt64}

namespace Stream

variable {stream : Stream}

theorem touched_pass (h : start.Touched mine disk) (hnew : start.contents.size ≤ stream.file)
    (bytes : Bytes) : Ends (stream.pass bytes) disk fun stream' after =>
      start.Touched mine after ∧ stream'.file = stream.file := by
  refine Ends.bind (h.ends_write hnew stream.offset bytes) fun _ after hafter => ?_
  exact Ends.pure _ ⟨hafter, rfl⟩

theorem touched_flush (h : start.Touched mine disk) (hnew : start.contents.size ≤ stream.file) :
    Ends stream.flush disk fun stream' after =>
      start.Touched mine after ∧ stream'.file = stream.file := by
  unfold flush
  split
  · exact Ends.pure _ ⟨h, rfl⟩
  · refine Ends.bind (touched_pass h hnew stream.pending) fun stream' after hafter => ?_
    exact Ends.pure _ hafter

theorem touched_write (h : start.Touched mine disk) (hnew : start.contents.size ≤ stream.file)
    (bytes : Bytes) : Ends (stream.write bytes) disk fun stream' after =>
      start.Touched mine after ∧ stream'.file = stream.file := by
  unfold write
  split
  · split
    · exact Ends.pure _ ⟨h, rfl⟩
    · exact touched_pass h hnew bytes
  · refine Ends.bind (touched_flush h hnew) fun stream' after hafter => ?_
    obtain ⟨hafter, hfile⟩ := hafter
    split
    · exact Ends.pure _ ⟨hafter, hfile⟩
    · refine (touched_pass hafter (hfile ▸ hnew) bytes).mono fun stream' last hlast => ?_
      exact ⟨hlast.1, hlast.2.trans hfile⟩

end Stream

/-- The four names of a generation may be touched, and none of them was that of a file. -/
def Disk.Offers (start : Disk) (generation : UInt64) (mine : String → Prop) : Prop :=
  ∀ name ∈ FileName.ofGeneration generation, start.fits name = true →
    mine name ∧ start.snapshot.names.file? name = none

theorem Disk.Offers.temporary (h : start.Offers generation mine) (half : Half) :
    start.fits (Builder.temporary half generation) = true →
      mine (Builder.temporary half generation) ∧
        start.snapshot.names.file? (Builder.temporary half generation) = none :=
  h _ (FileName.mem_ofGeneration.2 ⟨half, .inr rfl⟩)

theorem Disk.Offers.segment (h : start.Offers generation mine) (half : Half)
    (hfits : start.fits (FileName.segment half generation) = true) :
    mine (FileName.segment half generation) :=
  (h _ (FileName.mem_ofGeneration.2 ⟨half, .inl rfl⟩) hfits).1

namespace Builder

variable {builder : Builder}

/-- A builder of a generation, whose files were made since the start. -/
structure Fresh (start : Disk) (generation : UInt64) (builder : Builder) : Prop where
  numbered : builder.generation = generation
  data : start.contents.size ≤ builder.data.file
  index : start.contents.size ≤ builder.index.file
  named : ∀ half entries, start.snapshot.names.get? (temporary half generation) ≠ some (.folder entries)

/-- **Starting** creates two files. -/
theorem touched_start (h : start.Touched mine disk) (hoffers : start.Offers generation mine)
    (sync : Bool) : Ends (Builder.start generation sync).run disk fun result after =>
      start.Touched mine after ∧ ∀ builder, result = .ok builder → builder.Fresh start generation := by
  refine Ends.andThen (h.ends_create (hoffers.temporary .data)) ?_ ?_
  · rintro data created ⟨hcreated, hdata⟩
    obtain ⟨hdataNew, hdataNamed⟩ := hdata data rfl
    refine Ends.andThen (?both : Ends (Disk.orElse (Disk.create (temporary .index generation))
      (Disk.attempt (.unlink (temporary .data generation)))).run created fun result after =>
        start.Touched mine after ∧ ∀ number, result = .ok number → start.contents.size ≤ number ∧
          ∀ entries, start.snapshot.names.get? (temporary .index generation) ≠ some (.folder entries))
      ?_ ?_
    case both =>
      refine Ends.orElse (hcreated.ends_create (hoffers.temporary .index)) (fun _ _ hafter => hafter) ?_
      rintro error after ⟨hafter, -⟩
      refine (hafter.ends_unlink fun hfits => (hoffers.temporary .data hfits).1).mono ?_
      exact fun _ last hlast => ⟨hlast, by rintro _ ⟨⟩⟩
    · rintro index both ⟨hboth, hindex⟩
      obtain ⟨hindexNew, hindexNamed⟩ := hindex index rfl
      refine Ends.liftThen (Stream.touched_write hboth (show _ ≤ (Stream.ofFile index).file from hindexNew)
        (Layout.slotBytes 0)) ?_
      rintro stream after ⟨hafter, hfile⟩
      refine Ends.pure _ ⟨hafter, fun builder hbuilder => ?_⟩
      cases hbuilder
      refine ⟨rfl, hdataNew, hfile ▸ hindexNew, fun half => ?_⟩
      cases half with
      | data => exact hdataNamed
      | index => exact hindexNamed
    · rintro error after ⟨hafter, -⟩
      exact ⟨hafter, by rintro _ ⟨⟩⟩
  · rintro error after ⟨hafter, -⟩
    exact ⟨hafter, by rintro _ ⟨⟩⟩

/-- **Adding an entry** writes into the two files. -/
theorem touched_push (h : start.Touched mine disk) (hfresh : builder.Fresh start generation)
    (entry : Entry) : Ends (builder.push entry) disk fun builder' after =>
      start.Touched mine after ∧ builder'.Fresh start generation := by
  refine Ends.bind (Stream.touched_write h hfresh.data entry.key) ?_
  rintro data₁ disk₁ ⟨h₁, hdata₁⟩
  refine Ends.bind (Stream.touched_write h₁ (hdata₁ ▸ hfresh.data) entry.valueBytes) ?_
  rintro data₂ disk₂ ⟨h₂, hdata₂⟩
  refine Ends.bind (Stream.touched_write h₂ hfresh.index _) ?_
  rintro index₃ disk₃ ⟨h₃, hindex₃⟩
  refine Ends.bind (Stream.touched_write h₃ (hindex₃ ▸ hfresh.index) _) ?_
  rintro index₄ disk₄ ⟨h₄, hindex₄⟩
  have hdata : data₂.file = builder.data.file := hdata₂.trans hdata₁
  have hindex : index₄.file = builder.index.file := hindex₄.trans hindex₃
  exact Ends.pure _ ⟨h₄, hfresh.numbered, hdata ▸ hfresh.data, hindex ▸ hfresh.index, hfresh.named⟩

theorem touched_addAll (h : start.Touched mine disk) (hfresh : builder.Fresh start generation)
    (entries : List Entry) : Ends (builder.addAll entries) disk fun result after =>
      start.Touched mine after ∧ result.1.Fresh start generation := by
  induction entries generalizing builder disk with
  | nil => exact Ends.pure _ ⟨h, hfresh⟩
  | cons entry rest ih =>
    rw [addAll]
    split
    · exact Ends.pure _ ⟨h, hfresh⟩
    · refine Ends.bind (touched_push h hfresh entry) ?_
      rintro next after ⟨hafter, hnext⟩
      exact ih hafter hnext

theorem touched_removeTemporaries (h : start.Touched mine disk) (hoffers : start.Offers generation mine) :
    Ends (removeTemporaries generation) disk fun _ after => start.Touched mine after := by
  refine Ends.bind (h.ends_unlink fun hfits => (hoffers.temporary .data hfits).1) fun _ after hafter => ?_
  exact hafter.ends_unlink fun hfits => (hoffers.temporary .index hfits).1

/-- **Giving a builder up.** -/
theorem touched_discard (h : start.Touched mine disk) (hoffers : start.Offers generation mine)
    (hfresh : builder.Fresh start generation) :
    Ends builder.discard disk fun _ after => start.Touched mine after := by
  refine Ends.bind (Stream.touched_flush h hfresh.data) fun _ disk₁ h₁ => ?_
  refine Ends.bind (Stream.touched_flush h₁.1 hfresh.index) fun _ disk₂ h₂ => ?_
  rw [hfresh.numbered]
  exact touched_removeTemporaries h₂.1 hoffers

/-- Giving the two files their final names, where there were no files. -/
theorem touched_publish (h : start.Touched mine disk) (hoffers : start.Offers generation mine)
    (hfresh : builder.Fresh start generation) :
    Ends (publish generation).run disk fun _ after => start.Touched mine after := by
  refine Ends.andThen (h.ends_rename (by simp [temporary]) (hoffers.temporary .data)
    (hoffers.segment .data) (hfresh.named .data)) ?_ fun _ _ hafter => hafter
  rintro ⟨⟩ renamed hrenamed
  refine Ends.orElse (hrenamed.ends_rename (by simp [temporary]) (hoffers.temporary .index)
    (hoffers.segment .index) (hfresh.named .index)) (fun _ _ hafter => hafter) ?_
  -- The data file that is taken away again is the one just moved: none was there under its name.
  exact fun _ after hafter => hafter.ends_unlink (hoffers.segment .data)

/-- **Finishing a builder**, whether or not that succeeds. -/
theorem touched_finish (h : start.Touched mine disk) (hoffers : start.Offers generation mine)
    (hfresh : builder.Fresh start generation) :
    Ends builder.finish.run disk fun _ after => start.Touched mine after := by
  unfold finish
  split
  · refine Ends.liftThen (touched_discard h hoffers hfresh) fun _ after hafter => ?_
    exact Ends.pure _ hafter
  · refine Ends.liftThen (Stream.touched_flush h hfresh.data) fun _ disk₁ h₁ => ?_
    refine Ends.liftThen (Stream.touched_flush h₁.1 hfresh.index) fun _ disk₂ h₂ => ?_
    refine Ends.liftThen (Disk.ends_fileLength builder.data.file) ?_
    rintro _ _ ⟨-, rfl⟩
    refine Ends.liftThen (Disk.ends_fileLength builder.index.file) ?_
    rintro _ _ ⟨-, rfl⟩
    rw [hfresh.numbered]
    refine Ends.andThen (?placed : Ends (Disk.orElse (publish generation)
      (removeTemporaries generation)).run _ fun _ after => start.Touched mine after) ?_
      fun _ _ hafter => hafter
    case placed =>
      refine Ends.orElse (touched_publish h₂.1 hoffers hfresh) (fun _ _ hafter => hafter) ?_
      exact fun _ after hafter => touched_removeTemporaries hafter hoffers
    rintro ⟨⟩ placed hplaced
    split
    · refine Ends.andThen (hplaced.ends_looks Disk.looks_sync) ?_ fun _ _ hafter => hafter
      exact fun _ after hafter => Ends.pure _ hafter
    · exact Ends.pure _ hplaced

end Builder

/-- **Building a segment** touches the names of its generation only, whether it succeeds or fails. -/
theorem Manager.touched_build (hoffers : start.Offers generation mine) (sync : Bool)
    (entries : List Entry) :
    Ends (Manager.build sync generation entries).run start fun _ after => start.Touched mine after := by
  refine Ends.andThen (Builder.touched_start (.refl mine start) hoffers sync) ?_ fun _ _ h => h.1
  rintro builder started ⟨hstarted, hbuilder⟩
  refine Ends.liftThen (Builder.touched_addAll hstarted (hbuilder builder rfl) entries) ?_
  rintro ⟨last, refusal⟩ added ⟨hadded, hlast⟩
  cases refusal with
  | some error =>
    refine Ends.liftThen (Builder.touched_discard hadded hoffers hlast) fun _ after hafter => ?_
    exact hafter
  | none =>
    refine Ends.andThen (Builder.touched_finish hadded hoffers hlast) ?_ fun _ _ h => h
    rintro (_ | info) finished hfinished
    · exact Ends.pure _ hfinished
    · refine Ends.andThen (?loaded : Ends (Disk.orElse (Segment.load generation (some info) false)
        (Segment.remove generation)).run finished fun _ after => start.Touched mine after)
        (fun _ _ hafter => Ends.pure _ hafter) fun _ _ hafter => hafter
      refine Ends.orElse (hfinished.ends_looks (Segment.looks_load _ _ _)) (fun _ _ hafter => hafter) ?_
      -- The files that are taken away if the segment does not open are those just put in place.
      intro error after hafter
      refine Ends.bind (hafter.ends_unlink (hoffers.segment .data)) fun _ middle hmiddle => ?_
      exact hmiddle.ends_unlink (hoffers.segment .index)

/-- **Storing a manifest** touches its name and the temporary one only, where no temporary one is left. -/
theorem Manifest.touched_store (manifest : Manifest)
    (hmine : mine FileName.manifest) (hmine' : mine (FileName.temporary FileName.manifest))
    (hfree : start.fits (FileName.temporary FileName.manifest) = true →
      start.snapshot.names.file? (FileName.temporary FileName.manifest) = none) :
    Ends manifest.store.run start fun _ after => start.Touched mine after := by
  refine Ends.andThen (?encoded : Ends _ start fun _ after => after = start) ?_ ?_
  case encoded => exact Ends.pure _ rfl
  · rintro bytes _ rfl
    refine Ends.andThen ((Disk.Touched.refl mine _).ends_create fun hfits => ⟨hmine', hfree hfits⟩) ?_
      fun _ _ h => h.1
    rintro number created ⟨hcreated, hnumber⟩
    obtain ⟨hnew, hnamed⟩ := hnumber number rfl
    refine Ends.liftThen (hcreated.ends_write hnew 0 bytes) fun _ written hwritten => ?_
    refine Ends.orElse (hwritten.ends_rename FileName.temporary_manifest_ne_manifest
      (fun hfits => ⟨hmine', hfree hfits⟩) (fun _ => hmine) hnamed) (fun _ _ hafter => hafter) ?_
    exact fun _ after hafter => hafter.ends_unlink fun _ => hmine'
  · rintro error _ rfl
    exact .refl mine _

end Segments

end LsmTree
