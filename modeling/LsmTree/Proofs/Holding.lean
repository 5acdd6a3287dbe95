import LsmTree.Volume.Snapshot

/-!
# What a directory holds under its names

A directory keeps file numbers under names and octets under numbers. As long as no two names share a
number, it is just as well seen as a map from names to what they hold, and each mutation as a change of
that map:

* **`Snapshot.holding`** — what a name holds: nothing, a directory or the octets of a file;
* **`Snapshot.Unshared`** — no two names share a file;
* **`create_of_free`**, **`write_holding`**, **`rename_of_file`**, **`unlink_of_file`** — the change each
  mutation makes, and **`Within`** — a directory that differs under given names only.
-/

namespace LsmTree

/-- What a name of a directory holds. -/
inductive Holding
  | nothing
  | folder
  | file (bytes : Bytes)
  deriving DecidableEq

/-- What is left of it once a file is taken away. -/
def Holding.withoutFile : Holding → Holding
  | file _ => nothing
  | holding => holding

@[simp] theorem Holding.withoutFile_withoutFile (holding : Holding) :
    holding.withoutFile.withoutFile = holding.withoutFile := by
  cases holding <;> rfl

@[simp] theorem Holding.withoutFile_eq_folder {holding : Holding} :
    holding.withoutFile = .folder ↔ holding = .folder := by
  cases holding <;> simp [withoutFile]

theorem Holding.withoutFile_eq_nothing {holding : Holding} :
    holding.withoutFile = .nothing ↔ holding ≠ .folder := by
  cases holding <;> simp [withoutFile]

theorem Holding.withoutFile_ne_file {holding : Holding} {bytes : Bytes} :
    holding.withoutFile ≠ .file bytes := by
  cases holding <;> simp [withoutFile]

/-- A name that was no directory's and holds nothing any more has lost a file at most. -/
theorem Holding.eq_or_file {before after : Holding} (hfolder : before ≠ .folder)
    (hnothing : after = .nothing) : after = before ∨ ∃ bytes, before = .file bytes := by
  cases before with
  | nothing => exact .inl hnothing
  | folder => exact absurd rfl hfolder
  | file bytes => exact .inr ⟨bytes, rfl⟩

namespace Snapshot

/-- What a name holds. -/
def holding (snapshot : Snapshot) (name : String) : Holding :=
  match snapshot.names.get? name with
  | none => .nothing
  | some (.folder _) => .folder
  | some (.file number) => .file (snapshot.contents.get number)

/-- No two names share a file, and a name leads only to files that were made. -/
structure Unshared (snapshot : Snapshot) : Prop where
  made : ∀ {name number}, snapshot.names.get? name = some (.file number) →
    number < snapshot.contents.size
  alone : ∀ {name other number}, snapshot.names.get? name = some (.file number) →
    snapshot.names.get? other = some (.file number) → name = other

theorem unshared_of_empty (contents : Contents) : Unshared ⟨.empty, contents⟩ where
  made h := by simp [Directory.empty, Directory.get?] at h
  alone h := by simp [Directory.empty, Directory.get?] at h

theorem unshared_empty : Unshared .empty := unshared_of_empty _

variable {s t : Snapshot} {name other : String} {bytes : Bytes} {number : Nat}

theorem holding_of_get?_file (h : s.names.get? name = some (.file number)) :
    s.holding name = .file (s.contents.get number) := by
  simp [holding, h]

theorem holding_eq_nothing : s.holding name = .nothing ↔ s.names.get? name = none := by
  unfold holding
  split <;> simp [*]

theorem holding_eq_folder :
    s.holding name = .folder ↔ ∃ entries, s.names.get? name = some (.folder entries) := by
  unfold holding
  split <;> simp [*]

theorem holding_eq_file :
    s.holding name = .file bytes ↔
      ∃ number, s.names.get? name = some (.file number) ∧ s.contents.get number = bytes := by
  unfold holding
  split <;> simp [*]

theorem file?_eq_some : s.names.file? name = some number ↔ s.names.get? name = some (.file number) := by
  unfold Directory.file?
  split
  · next h => simp [h]
  · next h =>
    constructor
    · simp
    · intro hget
      exact absurd hget (h number)

theorem mem_fileNames :
    name ∈ s.names.fileNames ↔ ∃ bytes, s.holding name = .file bytes := by
  simp only [Directory.fileNames, List.mem_filter, Option.isSome_iff_exists, holding_eq_file]
  constructor
  · rintro ⟨-, number, hfile⟩
    exact ⟨_, number, file?_eq_some.1 hfile, rfl⟩
  · rintro ⟨bytes, number, hget, -⟩
    refine ⟨?_, number, file?_eq_some.2 hget⟩
    obtain ⟨entry, hentry, -⟩ := Option.map_eq_some_iff.1 hget
    have hname : entry.1 = name := by simpa using List.find?_some hentry
    exact hname ▸ List.mem_map_of_mem (List.mem_of_find?_eq_some hentry)

/-! ## What mutations change -/

theorem set_holding (hu : s.Unshared) (hget : s.names.get? name = some (.file number))
    (bytes : Bytes) :
    Unshared ⟨s.names, s.contents.set number bytes⟩ ∧
      ∀ other, holding ⟨s.names, s.contents.set number bytes⟩ other =
        if other = name then .file bytes else s.holding other := by
  refine ⟨⟨fun hfile => ?_, fun ha hb => hu.alone ha hb⟩, fun other => ?_⟩
  · simpa [Contents.set, Contents.size] using hu.made hfile
  · unfold holding
    by_cases hne : other = name
    · subst hne
      simp [hget, Contents.get_set_self (hu.made hget)]
    · simp only [if_neg hne]
      split
      · rfl
      · rfl
      · next number' hfile =>
        have hdiff : number' ≠ number := by
          rintro rfl
          exact hne (hu.alone hfile hget)
        rw [Contents.get_set_of_ne hdiff]

theorem create_of_folder (h : s.holding name = .folder) : s.create name = .error .isDirectory := by
  obtain ⟨entries, hget⟩ := holding_eq_folder.1 h
  simp [create, hget]

/-- **Creating a file** leaves it empty, under a number that no other name has. -/
theorem create_of_free (hu : s.Unshared) (h : s.holding name ≠ .folder) :
    ∃ number t, s.create name = .ok (number, t) ∧ t.Unshared ∧
      t.names.get? name = some (.file number) ∧
      (∀ other, other ≠ name → t.names.get? other = s.names.get? other) ∧
      ∀ other, t.holding other = if other = name then .file [] else s.holding other := by
  cases hget : s.names.get? name with
  | none =>
    -- The new file has a number that none had before.
    let t : Snapshot := ⟨s.names.put name (.file s.contents.size), (s.contents.add []).2⟩
    have hother : ∀ other, other ≠ name → t.names.get? other = s.names.get? other := by
      intro other hne
      simp [t, Directory.get?_put, hne]
    have hself : t.names.get? name = some (.file s.contents.size) := by
      simp [t, Directory.get?_put]
    have hsize : t.contents.size = s.contents.size + 1 := by simp [t, Contents.add, Contents.size]
    have hmade : ∀ {other number}, other ≠ name → t.names.get? other = some (.file number) →
        number < s.contents.size := fun hne hfile => hu.made (hother _ hne ▸ hfile)
    refine ⟨_, t, by simp [create, hget, t, Contents.add], ⟨?_, ?_⟩, hself, hother, ?_⟩
    · intro other number hfile
      by_cases hne : other = name
      · subst hne
        rw [hself] at hfile
        cases hfile
        omega
      · have := hmade hne hfile
        omega
    · intro a b number ha hb
      by_cases hane : a = name <;> by_cases hbne : b = name
      · rw [hane, hbne]
      · subst hane
        rw [hself] at ha
        cases ha
        exact absurd (hmade hbne hb) (Nat.lt_irrefl _)
      · subst hbne
        rw [hself] at hb
        cases hb
        exact absurd (hmade hane ha) (Nat.lt_irrefl _)
      · exact hu.alone (hother a hane ▸ ha) (hother b hbne ▸ hb)
    · intro other
      by_cases hne : other = name
      · subst hne
        rw [if_pos rfl, holding_of_get?_file hself]
        congr 1
        exact Contents.get_add_self _ _
      · rw [if_neg hne]
        unfold holding
        rw [hother other hne]
        split
        · rfl
        · rfl
        · next number hfile => rw [Contents.get_add_of_lt (hu.made hfile)]
  | some node =>
    cases node with
    | folder entries => exact absurd (holding_eq_folder.2 ⟨entries, hget⟩) h
    | file number =>
      obtain ⟨hunshared, hholding⟩ := set_holding hu hget []
      exact ⟨number, _, by simp [create, hget], hunshared, hget, fun _ _ => rfl, hholding⟩

/-- **Writing into a file** changes the octets of its name and of no other. -/
theorem write_holding (hu : s.Unshared) (hget : s.names.get? name = some (.file number))
    (offset : Nat) (bytes : Bytes) :
    Unshared { s with contents := s.contents.write number offset bytes } ∧
      ∀ other, holding { s with contents := s.contents.write number offset bytes } other =
        if other = name then .file (Contents.overwritten (s.contents.get number) offset bytes)
        else s.holding other :=
  set_holding hu hget _

theorem rename_of_folder (hsource : s.holding name = .file bytes) (htarget : s.holding other = .folder) :
    s.names.rename name other = .error .isDirectory := by
  obtain ⟨number, hget, -⟩ := holding_eq_file.1 hsource
  obtain ⟨entries, hfolder⟩ := holding_eq_folder.1 htarget
  have hne : name ≠ other := by
    rintro rfl
    simp [hget] at hfolder
  simp [Directory.rename, hget, hfolder, hne, Node.refusedOver?]

/-- **Renaming a file** moves its octets, in place of the file that had the name. -/
theorem rename_of_file (hu : s.Unshared) (hsource : s.holding name = .file bytes)
    (htarget : s.holding other ≠ .folder) (hne : name ≠ other) :
    ∃ names, s.names.rename name other = .ok names ∧ Unshared { s with names } ∧
      ∀ third, holding { s with names } third =
        if third = other then .file bytes else if third = name then .nothing else s.holding third := by
  obtain ⟨number, hget, hbytes⟩ := holding_eq_file.1 hsource
  have hrefused : (Node.file number).refusedOver? (s.names.get? other) = none := by
    cases htarget' : s.names.get? other with
    | none => rfl
    | some node =>
      cases node with
      | file _ => rfl
      | folder entries => exact absurd (holding_eq_folder.2 ⟨entries, htarget'⟩) htarget
  have hnames : ∀ third, ((s.names.erase name).put other (.file number)).get? third =
      if third = other then some (.file number)
      else if third = name then none else s.names.get? third := by
    intro third
    rw [Directory.get?_put, Directory.get?_erase]
  refine ⟨(s.names.erase name).put other (.file number), by simp [Directory.rename, hget, hne, hrefused],
    ⟨?_, ?_⟩, ?_⟩
  · intro third number' hfile
    rw [hnames] at hfile
    split at hfile
    · cases hfile
      exact hu.made hget
    · split at hfile
      · cases hfile
      · exact hu.made hfile
  · -- A name other than the new one has a file of its own, so not the one that was moved.
    have hmoved : ∀ third, third ≠ other → third ≠ name →
        s.names.get? third ≠ some (.file number) := fun third _ hthird hfile =>
      hthird (hu.alone hfile hget)
    intro a b number' ha hb
    rw [hnames] at ha hb
    by_cases haother : a = other <;> by_cases hbother : b = other
    · rw [haother, hbother]
    · rw [if_pos haother] at ha
      rw [if_neg hbother] at hb
      cases ha
      split at hb
      · cases hb
      · next hbname => exact absurd hb (hmoved b hbother hbname)
    · rw [if_neg haother] at ha
      rw [if_pos hbother] at hb
      cases hb
      split at ha
      · cases ha
      · next haname => exact absurd ha (hmoved a haother haname)
    · rw [if_neg haother] at ha
      rw [if_neg hbother] at hb
      split at ha
      · cases ha
      · split at hb
        · cases hb
        · exact hu.alone ha hb
  · intro third
    unfold holding
    simp only [hnames]
    by_cases hthird : third = other
    · simp [hthird, hbytes]
    · by_cases hname : third = name
      · simp [hname, hne]
      · simp [hthird, hname]

theorem unlink_of_not_file (h : ∀ bytes, s.holding name ≠ .file bytes) :
    ∃ cause, s.names.unlink name = .error cause := by
  unfold Directory.unlink
  split
  · exact ⟨_, rfl⟩
  · exact ⟨_, rfl⟩
  · next number hget => exact absurd (holding_of_get?_file hget) (h _)

/-- **Unlinking a file** leaves nothing under its name. -/
theorem unlink_of_file (hu : s.Unshared) (h : s.holding name = .file bytes) :
    ∃ names, s.names.unlink name = .ok names ∧ Unshared { s with names } ∧
      ∀ other, holding { s with names } other = if other = name then .nothing else s.holding other := by
  obtain ⟨number, hget, -⟩ := holding_eq_file.1 h
  refine ⟨s.names.erase name, by simp [Directory.unlink, hget], ⟨?_, ?_⟩, ?_⟩
  · intro other number' hfile
    simp only [Directory.get?_erase] at hfile
    split at hfile
    · cases hfile
    · exact hu.made hfile
  · intro a b number' ha hb
    simp only [Directory.get?_erase] at ha hb
    split at ha
    · cases ha
    · split at hb
      · cases hb
      · exact hu.alone ha hb
  · intro other
    unfold holding
    simp only [Directory.get?_erase]
    by_cases hne : other = name
    · simp [hne]
    · simp [hne]

/-- **Making a directory** takes a name that is free. -/
theorem makeFolder_holding (hu : s.Unshared) {names : Directory}
    (h : s.names.makeFolder name = .ok names) : Unshared { s with names } ∧ s.holding name = .nothing ∧
      ∀ other, holding { s with names } other = if other = name then .folder else s.holding other := by
  have hfree : s.names.get? name = none := by
    cases hget : s.names.get? name with
    | none => rfl
    | some node => simp [Directory.makeFolder, hget] at h
  obtain rfl : s.names.put name (.folder []) = names := by
    simpa [Directory.makeFolder, hfree] using h
  have hget : ∀ {other number}, (s.names.put name (.folder [])).get? other = some (.file number) →
      s.names.get? other = some (.file number) := by
    intro other number hfile
    rw [Directory.get?_put] at hfile
    split at hfile
    · cases hfile
    · exact hfile
  refine ⟨⟨fun hfile => hu.made (hget hfile), fun ha hb => hu.alone (hget ha) (hget hb)⟩,
    holding_eq_nothing.2 hfree, fun other => ?_⟩
  unfold holding
  simp only [Directory.get?_put]
  by_cases hne : other = name
  · simp [hne]
  · simp [hne]

/-- **Taking a directory away** frees its name. -/
theorem removeFolder_holding (hu : s.Unshared) {names : Directory}
    (h : s.names.removeFolder name = .ok names) : Unshared { s with names } ∧ s.holding name = .folder ∧
      ∀ other, holding { s with names } other = if other = name then .nothing else s.holding other := by
  obtain ⟨hfolder, rfl⟩ : s.names.get? name = some (.folder []) ∧ s.names.erase name = names := by
    unfold Directory.removeFolder at h
    split at h
    · cases h
    · cases h
    · next hget => exact ⟨hget, Except.ok.inj h⟩
    · cases h
  have hget : ∀ {other number}, (s.names.erase name).get? other = some (.file number) →
      s.names.get? other = some (.file number) := by
    intro other number hfile
    rw [Directory.get?_erase] at hfile
    split at hfile
    · cases hfile
    · exact hfile
  refine ⟨⟨fun hfile => hu.made (hget hfile), fun ha hb => hu.alone (hget ha) (hget hb)⟩,
    holding_eq_folder.2 ⟨[], hfolder⟩, fun other => ?_⟩
  unfold holding
  simp only [Directory.get?_erase]
  by_cases hne : other = name
  · simp [hne]
  · simp [hne]

/-- The second directory shares no files and has the same files as the first. -/
structure SameFiles (s t : Snapshot) : Prop where
  unshared : t.Unshared
  same : ∀ name bytes, t.holding name = .file bytes ↔ s.holding name = .file bytes

theorem SameFiles.refl (hu : s.Unshared) : SameFiles s s :=
  ⟨hu, fun _ _ => Iff.rfl⟩

theorem SameFiles.makeFolder (hu : s.Unshared) {names : Directory}
    (h : s.names.makeFolder name = .ok names) : SameFiles s { s with names } := by
  obtain ⟨hunshared, hfree, hholding⟩ := makeFolder_holding hu h
  refine ⟨hunshared, fun other bytes => ?_⟩
  rw [hholding]
  by_cases hother : other = name
  · simp [hother, hfree]
  · simp [hother]

theorem SameFiles.removeFolder (hu : s.Unshared) {names : Directory}
    (h : s.names.removeFolder name = .ok names) : SameFiles s { s with names } := by
  obtain ⟨hunshared, hfolder, hholding⟩ := removeFolder_holding hu h
  refine ⟨hunshared, fun other bytes => ?_⟩
  rw [hholding]
  by_cases hother : other = name
  · simp [hother, hfolder]
  · simp [hother]

/-! ## Differences under given names -/

/-- The second directory shares no files and differs from the first under the given names only. -/
structure Within (names : List String) (s t : Snapshot) : Prop where
  unshared : t.Unshared
  same : ∀ name, name ∉ names → t.holding name = s.holding name

theorem Within.refl (names : List String) (hu : s.Unshared) : Within names s s :=
  ⟨hu, fun _ _ => rfl⟩

theorem Within.of_eq (names : List String) (hu : s.Unshared) (h : t = s) : Within names s t :=
  h.symm ▸ .refl names hu

theorem Within.trans {u : Snapshot} {names : List String} (h : Within names s t)
    (h' : Within names t u) : Within names s u :=
  ⟨h'.unshared, fun name hname => (h'.same name hname).trans (h.same name hname)⟩

theorem Within.mono {names more : List String} (h : Within names s t) (hsub : names ⊆ more) :
    Within more s t :=
  ⟨h.unshared, fun name hname => h.same name fun hmem => hname (hsub hmem)⟩

/-- Nothing but files is lost: what differs was a file under one of the given names. -/
structure Restored (names : List String) (s t : Snapshot) : Prop where
  unshared : t.Unshared
  same : ∀ name, t.holding name = s.holding name ∨ (name ∈ names ∧ ∃ bytes, s.holding name = .file bytes)

theorem Restored.refl (names : List String) (hu : s.Unshared) : Restored names s s :=
  ⟨hu, fun _ => .inl rfl⟩

theorem Restored.mono {names more : List String} (h : Restored names s t) (hsub : names ⊆ more) :
    Restored more s t :=
  ⟨h.unshared, fun name => (h.same name).imp_right fun ⟨hmem, hfile⟩ => ⟨hsub hmem, hfile⟩⟩

/-- Where each of the names is as it was, or has lost what was no directory, nothing but files is lost. -/
theorem Restored.of_cleared {names : List String} (h : Within names s t)
    (hcleared : ∀ name ∈ names, t.holding name = s.holding name ∨
      (s.holding name ≠ .folder ∧ t.holding name = .nothing)) : Restored names s t := by
  refine ⟨h.unshared, fun name => ?_⟩
  by_cases hmem : name ∈ names
  · rcases hcleared name hmem with hsame | ⟨hfolder, hnothing⟩
    · exact .inl hsame
    · exact (Holding.eq_or_file hfolder hnothing).imp_right fun hfile => ⟨hmem, hfile⟩
  · exact .inl (h.same name hmem)

theorem Restored.within {names : List String} (h : Restored names s t) : Within names s t :=
  ⟨h.unshared, fun name hname => (h.same name).resolve_right fun hmem => hname hmem.1⟩

/-- Where none of the names was a file's, all is as it was. -/
theorem Restored.holding {names : List String} (h : Restored names s t)
    (hnone : ∀ name ∈ names, ∀ bytes, s.holding name ≠ .file bytes) (name : String) :
    t.holding name = s.holding name :=
  (h.same name).resolve_right fun ⟨hmem, bytes, hfile⟩ => hnone name hmem bytes hfile

/-- The files under the given names are taken away, and nothing else is changed. -/
structure Removed (names : List String) (s t : Snapshot) : Prop where
  unshared : t.Unshared
  holding : ∀ name, t.holding name =
    if name ∈ names then (s.holding name).withoutFile else s.holding name

theorem Removed.nil (hu : s.Unshared) : Removed [] s s :=
  ⟨hu, fun _ => by simp⟩

theorem Removed.trans {u : Snapshot} {names more : List String} (h : Removed names s t)
    (h' : Removed more t u) : Removed (names ++ more) s u := by
  refine ⟨h'.unshared, fun name => ?_⟩
  rw [h'.holding, h.holding]
  by_cases hmem : name ∈ names <;> by_cases hmore : name ∈ more <;> simp [hmem, hmore]

theorem Removed.within {names : List String} (h : Removed names s t) : Within names s t :=
  ⟨h.unshared, fun name hname => by rw [h.holding, if_neg hname]⟩

theorem Removed.file_iff {names : List String} (h : Removed names s t) :
    t.holding name = .file bytes ↔ s.holding name = .file bytes ∧ name ∉ names := by
  rw [h.holding]
  by_cases hmem : name ∈ names
  · cases hholding : s.holding name <;> simp [hmem, Holding.withoutFile]
  · simp [hmem]

theorem Removed.folder_iff {names : List String} (h : Removed names s t) :
    t.holding name = .folder ↔ s.holding name = .folder := by
  rw [h.holding]
  by_cases hmem : name ∈ names
  · simp [hmem]
  · simp [hmem]

/-! ## Files that are new -/

/-- Each file of the second directory has one of the given names or was a file in the first one. -/
def Gains (names : List String) (s t : Snapshot) : Prop :=
  ∀ name bytes, t.holding name = .file bytes → name ∈ names ∨ ∃ old, s.holding name = .file old

theorem Gains.refl (names : List String) (s : Snapshot) : Gains names s s :=
  fun _ bytes hfile => .inr ⟨bytes, hfile⟩

theorem Gains.mono {names more : List String} (h : Gains names s t) (hsub : names ⊆ more) :
    Gains more s t :=
  fun name bytes hfile => (h name bytes hfile).imp_left fun hmem => hsub hmem

theorem Gains.trans {u : Snapshot} {names : List String} (h : Gains names s t) (h' : Gains names t u) :
    Gains names s u := by
  intro name bytes hfile
  rcases h' name bytes hfile with hmem | ⟨old, hold⟩
  · exact .inl hmem
  · exact h name old hold

theorem Restored.gains {names : List String} (h : Restored names s t) : Gains [] s t := by
  intro name bytes hfile
  rcases h.same name with hsame | ⟨-, hold⟩
  · exact .inr ⟨bytes, hsame ▸ hfile⟩
  · exact .inr hold

theorem Removed.gains {names : List String} (h : Removed names s t) : Gains [] s t :=
  fun _ bytes hfile => .inr ⟨bytes, (h.file_iff.1 hfile).1⟩

end Snapshot

end LsmTree
