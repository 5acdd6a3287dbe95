import LsmTree.Proofs.Storing

/-!
# Committed directories

A directory is committed to a list of segments if its manifest lists them and both files of each are
there. That lasts through any change under other names, so through everything that happens before a new
manifest is installed:

* **`Lists`** — a manifest with the segments that it lists, whatever their order;
* **`Committed`** — what a reopening relies on: the segments are listed newest first;
* **`Committed.within`** — changes under other names leave a directory committed as it was;
* **`Committed.of_commits`** — an installed manifest commits the directory to the segments it lists;
* **`Tidy`** — a directory whose files all have names that the store gives;
* **`Kept`** — both of these, as it is while a manager hands out generations.
-/

namespace LsmTree

open Snapshot (Within Removed SameFiles Gains)

/-- Segments with generations that fall strictly from the first one on, as they do newest first. -/
abbrev Falling (segments : List Segment) : Prop :=
  segments.Pairwise fun newer older => older.generation < newer.generation

/-- The manifest of a directory lists the given segments, in whatever order, and a next generation past all
of theirs; both files of each segment are there and open as that segment. -/
structure Lists (snapshot : Snapshot) (next : UInt64) (segments : List Segment) : Prop where
  unshared : snapshot.Unshared
  written : ∃ bytes, (Manifest.current next (segments.reverse.map Segment.info)).encode = .ok bytes ∧
    snapshot.holding FileName.manifest = .file bytes
  stored : ∀ segment ∈ segments, Stored snapshot segment
  below : ∀ segment ∈ segments, segment.generation < next

/-- The manifest of a directory lists the given segments, newest first, and a next generation past all
of theirs; both files of each segment are there and open as that segment. -/
structure Committed (snapshot : Snapshot) (next : UInt64) (segments : List Segment) : Prop where
  unshared : snapshot.Unshared
  written : ∃ bytes, (Manifest.current next (segments.reverse.map Segment.info)).encode = .ok bytes ∧
    snapshot.holding FileName.manifest = .file bytes
  stored : ∀ segment ∈ segments, Stored snapshot segment
  below : ∀ segment ∈ segments, segment.generation < next
  falling : Falling segments

variable {s t : Snapshot} {next : UInt64} {segments : List Segment}

theorem Committed.lists (h : Committed s next segments) : Lists s next segments :=
  ⟨h.unshared, h.written, h.stored, h.below⟩

theorem Lists.committed (h : Lists s next segments) (hfalling : Falling segments) :
    Committed s next segments :=
  ⟨h.unshared, h.written, h.stored, h.below, hfalling⟩

/-- **Changes under other names** leave the manifest with what it lists. -/
theorem Lists.within {names : List String} (h : Lists s next segments)
    (hwithin : Within names s t) (hmanifest : FileName.manifest ∉ names)
    (hnames : ∀ segment ∈ segments, ∀ half, FileName.segment half segment.generation ∉ names) :
    Lists t next segments := by
  obtain ⟨bytes, hencode, hwritten⟩ := h.written
  exact ⟨hwithin.unshared, ⟨bytes, hencode, (hwithin.same _ hmanifest).trans hwritten⟩,
    fun segment hmem => (h.stored segment hmem).within hwithin (hnames segment hmem), h.below⟩

theorem Lists.of_sameFiles (h : Lists s next segments) (hsame : SameFiles s t) :
    Lists t next segments := by
  obtain ⟨bytes, hencode, hwritten⟩ := h.written
  exact ⟨hsame.unshared, ⟨bytes, hencode, (hsame.same _ _).2 hwritten⟩,
    fun segment hmem => (h.stored segment hmem).of_sameFiles hsame, h.below⟩

/-- **Changes under other names** leave a directory committed as it was. -/
theorem Committed.within {names : List String} (h : Committed s next segments)
    (hwithin : Within names s t) (hmanifest : FileName.manifest ∉ names)
    (hnames : ∀ segment ∈ segments, ∀ half, FileName.segment half segment.generation ∉ names) :
    Committed t next segments :=
  (h.lists.within hwithin hmanifest hnames).committed h.falling

/-- Changes under the names of a generation that is not listed, and under that of a new manifest, leave a
directory committed as it was. -/
theorem Committed.spared {generation : UInt64} (h : Committed s next segments)
    (hwithin : Within (FileName.temporary FileName.manifest :: FileName.ofGeneration generation) s t)
    (hfresh : ∀ segment ∈ segments, segment.generation ≠ generation) : Committed t next segments := by
  refine h.within hwithin ?_ fun segment hmem half => ?_
  · simp [FileName.ofGeneration, FileName.temporary_manifest_ne_manifest.symm]
  · rw [List.mem_cons, FileName.segment_mem_ofGeneration]
    rintro (hname | hgeneration)
    · exact FileName.temporary_manifest_ne_segment _ _ hname.symm
    · exact hfresh segment hmem hgeneration

theorem Committed.removed {generations : List UInt64} (h : Committed s next segments)
    (hwithin : Within (generations.flatMap FileName.halves) s t)
    (hother : ∀ generation ∈ generations, ∀ segment ∈ segments, segment.generation ≠ generation) :
    Committed t next segments := by
  refine h.within hwithin (FileName.manifest_not_mem_halves _) fun segment hmem half hname => ?_
  obtain ⟨generation, hgeneration, hname⟩ := List.mem_flatMap.1 hname
  obtain ⟨half', hname⟩ := FileName.mem_halves.1 hname
  exact hother generation hgeneration segment hmem (FileName.segment_injective hname).2

theorem Committed.of_sameFiles (h : Committed s next segments) (hsame : SameFiles s t) :
    Committed t next segments :=
  (h.lists.of_sameFiles hsame).committed h.falling

/-- The names of the files of the given segments. -/
def filesOf (segments : List Segment) : List String :=
  segments.flatMap fun segment => FileName.halves segment.generation

theorem mem_filesOf {name : String} {segments : List Segment} : name ∈ filesOf segments ↔
    ∃ segment ∈ segments, ∃ half, name = FileName.segment half segment.generation := by
  simp only [filesOf, List.mem_flatMap, FileName.mem_halves]

theorem filesOf_subset {segments more : List Segment} (h : segments ⊆ more) :
    filesOf segments ⊆ filesOf more := by
  intro name hname
  obtain ⟨segment, hmem, hhalf⟩ := mem_filesOf.1 hname
  exact mem_filesOf.2 ⟨segment, h hmem, hhalf⟩

/-- A new manifest is installed, and with it the segment built for it, if there is one, is stored under
the names of its generation; nothing else is changed. -/
structure Commits (generation : UInt64) (built : Option Segment) (manifest : Manifest)
    (s t : Snapshot) : Prop where
  within : Within (FileName.manifest :: FileName.temporary FileName.manifest ::
    FileName.ofGeneration generation) s t
  written : ∃ bytes, manifest.encode = .ok bytes ∧ t.holding FileName.manifest = .file bytes
  stored : ∀ segment, built = some segment → segment.generation = generation ∧ Stored t segment
  /-- Under other names a file may be lost at most. -/
  rest : ∀ name, name ≠ FileName.manifest → name ∉ filesOf built.toList →
    t.holding name = s.holding name ∨ ∃ bytes, s.holding name = .file bytes

theorem Commits.gains {generation : UInt64} {built : Option Segment} {manifest : Manifest}
    (h : Commits generation built manifest s t) :
    Gains (FileName.manifest :: filesOf built.toList) s t := by
  intro name bytes hfile
  by_cases hmem : name ∈ FileName.manifest :: filesOf built.toList
  · exact .inl hmem
  · obtain ⟨hmanifest, hother⟩ := not_or.1 fun h => hmem (List.mem_cons.2 h)
    refine .inr ((h.rest name hmanifest hother).elim (fun hsame => ⟨bytes, ?_⟩) id)
    rw [← hsame]
    exact hfile

/-- **An installed manifest** commits the directory to the segments it lists: the one built for it, and
any of those that were listed before. -/
theorem Committed.of_commits {generation next' : UInt64} {built : Option Segment}
    {segments' : List Segment} (h : Committed s next segments)
    (hcommits : Commits generation built
      (Manifest.current next' (segments'.reverse.map Segment.info)) s t)
    (holder : ∀ segment ∈ segments, segment.generation < generation)
    (hlisted : segments'.Sublist (built.toList ++ segments))
    (hbelow : ∀ segment ∈ segments', segment.generation < next') : Committed t next' segments' := by
  refine ⟨hcommits.within.unshared, hcommits.written, fun segment hmem => ?_, hbelow, ?_⟩
  · rcases List.mem_append.1 (hlisted.subset hmem) with hbuilt | hold
    · exact (hcommits.stored segment (Option.mem_toList.1 hbuilt)).2
    · refine (h.stored segment hold).within hcommits.within fun half => ?_
      rw [List.mem_cons, List.mem_cons, FileName.segment_mem_ofGeneration]
      rintro (hname | hname | hgeneration)
      · exact FileName.segment_ne_manifest _ _ hname
      · exact FileName.temporary_manifest_ne_segment _ _ hname.symm
      · exact UInt64.ne_of_lt (holder segment hold) hgeneration
  · refine List.Pairwise.sublist hlisted (List.pairwise_append.2 ⟨?_, h.falling, ?_⟩)
    · cases built with
      | none => exact List.Pairwise.nil
      | some segment => exact List.pairwise_singleton _ _
    · intro segment hbuilt older hold
      rw [(hcommits.stored segment (Option.mem_toList.1 hbuilt)).1]
      exact holder older hold

/-! ## Names of files -/

/-- The names that the store gives to files of generations below a limit, and to manifests. -/
def Known (limit : Nat) (name : String) : Prop :=
  name = FileName.manifest ∨ name = FileName.temporary FileName.manifest ∨
    ∃ generation : UInt64, generation.toNat < limit ∧ name ∈ FileName.ofGeneration generation

/-- Every file of a directory has a name that the store gives. -/
def Tidy (limit : Nat) (snapshot : Snapshot) : Prop :=
  ∀ name bytes, snapshot.holding name = .file bytes → Known limit name

variable {limit more : Nat}

theorem Known.mono {name : String} (h : Known limit name) (hle : limit ≤ more) : Known more name := by
  rcases h with h | h | ⟨generation, hlt, hmem⟩
  · exact .inl h
  · exact .inr (.inl h)
  · exact .inr (.inr ⟨generation, Nat.lt_of_lt_of_le hlt hle, hmem⟩)

theorem Tidy.mono (h : Tidy limit s) (hle : limit ≤ more) : Tidy more s :=
  fun name bytes hfile => (h name bytes hfile).mono hle

theorem Tidy.of_sameFiles (h : Tidy limit s) (hsame : SameFiles s t) : Tidy limit t :=
  fun name bytes hfile => h name bytes ((hsame.same name bytes).1 hfile)

theorem Tidy.removed {names : List String} (h : Tidy limit s) (hremoved : Removed names s t) :
    Tidy limit t :=
  fun name bytes hfile => h name bytes (hremoved.file_iff.1 hfile).1

theorem Tidy.within {names : List String} (h : Tidy limit s) (hwithin : Within names s t)
    (hnames : ∀ name ∈ names, Known limit name) : Tidy limit t := by
  intro name bytes hfile
  by_cases hmem : name ∈ names
  · exact hnames name hmem
  · exact h name bytes ((hwithin.same name hmem).symm.trans hfile)

theorem Tidy.within_generation {generation : UInt64} (h : Tidy limit s)
    (hwithin : Within (FileName.manifest :: FileName.temporary FileName.manifest ::
      FileName.ofGeneration generation) s t) (hlt : generation.toNat < limit) : Tidy limit t := by
  refine h.within hwithin fun name hname => ?_
  rcases List.mem_cons.1 hname with rfl | hname
  · exact .inl rfl
  · rcases List.mem_cons.1 hname with rfl | hname
    · exact .inr (.inl rfl)
    · exact .inr (.inr ⟨generation, hlt, hname⟩)

/-! ## A directory in use -/

/-- A directory is committed to the given segments, with `recorded` as the next generation in its
manifest; it is tidy, and the generations from `next` on have not been used in it. -/
structure Kept (recorded next : UInt64) (segments : List Segment) (snapshot : Snapshot) : Prop where
  committed : Committed snapshot recorded segments
  recorded_le : recorded ≤ next
  tidy : Tidy next.toNat snapshot

theorem toNat_add_ofNat {handed : Nat} (hroom : next.toNat + handed < UInt64.size) :
    (next + .ofNat handed).toNat = next.toNat + handed := by
  rw [UInt64.toNat_add, UInt64.toNat_ofNat_of_lt' (Nat.lt_of_le_of_lt (Nat.le_add_left _ _) hroom)]
  exact Nat.mod_eq_of_lt hroom

namespace Kept

variable {recorded : UInt64}

theorem unshared (h : Kept recorded next segments s) : s.Unshared :=
  h.committed.unshared

theorem generation_lt (h : Kept recorded next segments s) {segment : Segment} (hmem : segment ∈ segments) :
    segment.generation < next :=
  UInt64.lt_of_lt_of_le (h.committed.below segment hmem) h.recorded_le

theorem generation_ne (h : Kept recorded next segments s) {segment : Segment} (hmem : segment ∈ segments) :
    segment.generation ≠ next :=
  UInt64.ne_of_lt (h.generation_lt hmem)

theorem toNat_succ (hroom : next.toNat + 1 < UInt64.size) : (next + 1).toNat = next.toNat + 1 :=
  toNat_add_ofNat hroom

theorem le_succ (hroom : next.toNat + 1 < UInt64.size) : next ≤ next + 1 := by
  rw [UInt64.le_iff_toNat_le, toNat_succ hroom]
  exact Nat.le_succ _

/-- **Using the next generation** without committing to it leaves the segments as they were. -/
theorem spared (h : Kept recorded next segments s) (hroom : next.toNat + 1 < UInt64.size)
    (hwithin : Within (FileName.temporary FileName.manifest :: FileName.ofGeneration next) s t) :
    Kept recorded (next + 1) segments t := by
  refine ⟨h.committed.spared hwithin fun _ hmem => h.generation_ne hmem,
    UInt64.le_trans h.recorded_le (le_succ hroom), ?_⟩
  rw [toNat_succ hroom]
  exact (h.tidy.mono (Nat.le_succ _)).within_generation (hwithin.mono (List.subset_cons_self _ _))
    (Nat.lt_succ_self _)

/-- **Committing to the next generation** and to any of the segments before. -/
theorem of_commits {built : Option Segment} {segments' : List Segment} (h : Kept recorded next segments s)
    (hroom : next.toNat + 1 < UInt64.size)
    (hcommits : Commits next built
      (Manifest.current (next + 1) (segments'.reverse.map Segment.info)) s t)
    (hlisted : segments'.Sublist (built.toList ++ segments)) :
    Kept (next + 1) (next + 1) segments' t := by
  have hbelow : ∀ segment ∈ segments', segment.generation < next + 1 := by
    intro segment hmem
    rw [UInt64.lt_iff_toNat_lt, toNat_succ hroom, Nat.lt_succ_iff, ← UInt64.le_iff_toNat_le]
    rcases List.mem_append.1 (hlisted.subset hmem) with hbuilt | hold
    · exact UInt64.le_of_eq (hcommits.stored segment (Option.mem_toList.1 hbuilt)).1
    · exact UInt64.le_of_lt (h.generation_lt hold)
  refine ⟨h.committed.of_commits hcommits (fun _ hmem => h.generation_lt hmem) hlisted hbelow,
    UInt64.le_refl _, ?_⟩
  rw [toNat_succ hroom]
  exact (h.tidy.mono (Nat.le_succ _)).within_generation hcommits.within (Nat.lt_succ_self _)

/-- **Taking other segments away**, of generations used before, leaves the segments as they were. -/
theorem removed {generations : List UInt64} (h : Kept recorded next segments s)
    (hwithin : Within (generations.flatMap FileName.halves) s t)
    (hused : ∀ generation ∈ generations, generation < next)
    (hother : ∀ generation ∈ generations, ∀ segment ∈ segments, segment.generation ≠ generation) :
    Kept recorded next segments t := by
  refine ⟨h.committed.removed hwithin hother, h.recorded_le, h.tidy.within hwithin fun name hname => ?_⟩
  obtain ⟨generation, hgeneration, hname⟩ := List.mem_flatMap.1 hname
  obtain ⟨half, hname⟩ := FileName.mem_halves.1 hname
  exact .inr (.inr ⟨generation, UInt64.lt_iff_toNat_lt.1 (hused generation hgeneration),
    FileName.mem_ofGeneration.2 ⟨half, .inl hname⟩⟩)

theorem of_sameFiles (h : Kept recorded next segments s) (hsame : SameFiles s t) :
    Kept recorded next segments t :=
  ⟨h.committed.of_sameFiles hsame, h.recorded_le, h.tidy.of_sameFiles hsame⟩

end Kept

end LsmTree
