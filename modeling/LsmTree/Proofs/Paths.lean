import LsmTree.Volume.Files

/-!
# Where paths lead

A path leads through directories, one part after the other. Where it leads can be told from the path alone,
but whether it leads there depends on every directory on the way, those that it only passes included.

* **`Path.resolve`** — the names that lead to where a path leads, with **`Volume.locate_eq`**;
* **`Directory.Spans`** — where one could get in a tree, one still can, and so a path leads where it led:
  **`Directory.walk_of_spans`**;
* **`Directory.SameBelow`** — two trees have the same files: directories are made, and empty ones taken away,
  wherever they are, by **`Volume.keeps_makeAll`** and **`Volume.keeps_removeFolder`**;
* **`Volume.snapshot`** — what there is where a path leads; **`Volume.folder_update`** and
  **`Volume.disk_update`** — after an operation on the directory.
-/

namespace LsmTree

namespace Path

/-- Where one more part of a path leads. -/
def follow (names : List String) (part : String) : List String :=
  if part = "" ∨ part = "." then names else if part = ".." then names.dropLast else names ++ [part]

/-- The names that lead to where a path leads, whatever is there. -/
def resolve (path : String) : List String := (parts path).foldl follow []

end Path

/-! ## Ways down -/

namespace Directory

variable {root changed dir : Directory} {name : String} {names parts : List String}

theorem folderAt_cons (root : Directory) (name : String) (names : List String) :
    root.folderAt (name :: names) = (root.enter name).bind fun dir => dir.folderAt names := rfl

theorem folderAt_cons_eq_ok : root.folderAt (name :: names) = .ok dir ↔
    ∃ inner, root.enter name = .ok inner ∧ inner.folderAt names = .ok dir := by
  rw [folderAt_cons]
  cases root.enter name <;> simp [Except.bind]

theorem folderAt_concat (root : Directory) (names : List String) (name : String) :
    root.folderAt (names ++ [name]) = (root.folderAt names).bind fun dir => dir.enter name := by
  rw [folderAt, List.foldlM_append]
  show (root.folderAt names).bind (fun dir => (dir.enter name).bind fun last => .ok last) = _
  congr 1
  funext dir
  cases dir.enter name <;> rfl

theorem enter_eq_ok : root.enter name = .ok dir ↔ root.get? name = some (.folder dir.entries) := by
  unfold enter
  split
  · next h => simp [h]
  · next h => simp [h]
  · next entries h =>
    rw [h]
    constructor
    · rintro ⟨⟩
      rfl
    · rintro ⟨⟩
      rfl

/-- The names passed on a way down. -/
def Trail.passed (trail : Trail) : List String := (trail.map Prod.fst).reverse

/-- A way down from a root: each name was looked up where the names before it lead. -/
def Trail.From (root : Directory) : Trail → Prop
  | [] => True
  | (_, dir) :: rest => root.folderAt (passed rest) = .ok dir ∧ From root rest

theorem Trail.From.start (root : Directory) : Trail.From root [] := trivial

variable {trail : Trail}

theorem Trail.passed_cons (step : String × Directory) : passed (step :: trail) = trail.passed ++ [step.1] := by
  simp [passed]

theorem Trail.passed_tail : passed trail.tail = trail.passed.dropLast := by
  cases trail with
  | nil => rfl
  | cons step rest => rw [passed_cons, List.dropLast_concat, List.tail_cons]

theorem Trail.From.tail (h : trail.From root) : Trail.From root trail.tail := by
  cases trail with
  | nil => trivial
  | cons step rest => exact h.2

theorem trailEnd_eq (h : trail.From root) : root.trailEnd trail = root.folderAt trail.passed := by
  cases trail with
  | nil => rfl
  | cons step rest =>
    obtain ⟨name, dir⟩ := step
    rw [Trail.passed_cons, folderAt_concat, h.1]
    rfl

/-- A way down, one more part of a path further. -/
def Trail.onward (trail : Trail) (here : Directory) (part : String) : Trail :=
  if part = "" ∨ part = "." then trail else if part = ".." then trail.tail else (part, here) :: trail

theorem Trail.passed_onward (here : Directory) (part : String) :
    (trail.onward here part).passed = Path.follow trail.passed part := by
  unfold onward Path.follow
  split
  · rfl
  · split
    · exact passed_tail
    · exact passed_cons _

theorem Trail.From.onward {here : Directory} (h : trail.From root)
    (hhere : root.folderAt trail.passed = .ok here) (part : String) : (trail.onward here part).From root := by
  unfold Trail.onward
  split
  · exact h
  · split
    · exact h.tail
    · exact ⟨hhere, h⟩

/-- Refuses a part of a path that is a name, if the name is too long. -/
def allow (part : String) : Except OsError Unit :=
  if part = "" ∨ part = "." ∨ part = ".." then .ok () else Path.checkName part

theorem walk_cons (root : Directory) (trail : Trail) (part : String) (parts : List String) :
    root.walk trail (part :: parts) = (root.trailEnd trail).bind fun here =>
      (allow part).bind fun _ => root.walk (trail.onward here part) parts := by
  show (root.trailEnd trail).bind _ = _
  congr 1
  funext here
  unfold allow Trail.onward
  by_cases hstay : part = "" ∨ part = "."
  · simp [hstay, ← or_assoc, Except.bind]
  · by_cases hup : part = ".."
    · simp [hup, Except.bind]
    · simp only [hstay, hup, ← or_assoc, or_self, if_false]
      rfl

theorem walk_cons_eq_ok {part : String} {result : List String} (hfrom : trail.From root) :
    root.walk trail (part :: parts) = .ok result ↔ ∃ here, root.folderAt trail.passed = .ok here ∧
      allow part = .ok () ∧ root.walk (trail.onward here part) parts = .ok result := by
  rw [walk_cons, trailEnd_eq hfrom]
  cases root.folderAt trail.passed with
  | error cause => simp [Except.bind]
  | ok here => cases allow part <;> simp [Except.bind]

/-- **A path leads where it says**, if it leads anywhere. -/
theorem walk_eq {result : List String} (hfrom : trail.From root)
    (h : root.walk trail parts = .ok result) : result = parts.foldl Path.follow trail.passed := by
  induction parts generalizing trail with
  | nil => exact (Except.ok.inj h).symm
  | cons part parts ih =>
    obtain ⟨here, hhere, -, hrest⟩ := (walk_cons_eq_ok hfrom).1 h
    rw [List.foldl_cons, ← Trail.passed_onward here part]
    exact ih (hfrom.onward hhere part) hrest

/-! ## Ways that stay -/

/-- Where one could get, one still can. -/
def Spans (root changed : Directory) : Prop :=
  ∀ names dir, root.folderAt names = .ok dir → ∃ dir', changed.folderAt names = .ok dir'

/-- **A path leads where it led** if all directories on the way are still there. -/
theorem walk_of_spans {other : Trail} {result : List String} (hspans : root.Spans changed)
    (hfrom : trail.From root) (hother : other.From changed) (hpassed : other.passed = trail.passed)
    (h : root.walk trail parts = .ok result) : changed.walk other parts = .ok result := by
  -- The two ways down may differ in the directories that they passed, but not in the names.
  induction parts generalizing trail other with
  | nil =>
    rw [← Except.ok.inj h]
    exact congrArg Except.ok hpassed
  | cons part parts ih =>
    obtain ⟨here, hhere, hallow, hrest⟩ := (walk_cons_eq_ok hfrom).1 h
    obtain ⟨there, hthere⟩ := hspans _ _ hhere
    rw [← hpassed] at hthere
    refine (walk_cons_eq_ok hother).2 ⟨there, hthere, hallow, ?_⟩
    refine ih (hfrom.onward hhere part) (hother.onward hthere part) ?_ hrest
    rw [Trail.passed_onward, Trail.passed_onward, hpassed]

theorem Spans.of_enter (h : ∀ name inner, root.enter name = .ok inner → changed.enter name = .ok inner) :
    root.Spans changed := by
  intro names dir hdir
  cases names with
  | nil => exact ⟨changed, rfl⟩
  | cons name names =>
    obtain ⟨inner, henter, hinner⟩ := folderAt_cons_eq_ok.1 hdir
    exact ⟨dir, folderAt_cons_eq_ok.2 ⟨inner, h _ _ henter, hinner⟩⟩

/-! ## A change somewhere below -/

theorem enter_put_self (root dir : Directory) (name : String) :
    (root.put name (.folder dir.entries)).enter name = .ok dir :=
  enter_eq_ok.2 (by rw [get?_put, if_pos rfl])

theorem enter_put_of_ne {other : String} (h : other ≠ name) (node : Node) :
    (root.put name node).enter other = root.enter other := by
  rw [enter, get?_put, if_neg h, enter]

variable {change : Directory → Except OsError Directory}

theorem changeAt_cons_eq_ok : root.changeAt change (name :: names) = .ok changed ↔
    ∃ inner innermost, root.enter name = .ok inner ∧ inner.changeAt change names = .ok innermost ∧
      root.put name (.folder innermost.entries) = changed := by
  rw [changeAt]
  cases root.enter name with
  | error cause => simp [bind, Except.bind]
  | ok inner => cases hinner : inner.changeAt change names <;> simp [bind, Except.bind, pure, Except.pure, hinner]

/-- **What a change does**: the directory is there, it can be changed, and what it is changed into is there
then. -/
theorem folderAt_of_changeAt (h : root.changeAt change names = .ok changed) :
    ∃ dir dir', root.folderAt names = .ok dir ∧ change dir = .ok dir' ∧
      changed.folderAt names = .ok dir' := by
  induction names generalizing root changed with
  | nil => exact ⟨root, changed, rfl, h, rfl⟩
  | cons name names ih =>
    obtain ⟨inner, innermost, henter, hinner, rfl⟩ := changeAt_cons_eq_ok.1 h
    obtain ⟨dir, dir', hdir, hchange, hdir'⟩ := ih hinner
    exact ⟨dir, dir', folderAt_cons_eq_ok.2 ⟨inner, henter, hdir⟩, hchange,
      folderAt_cons_eq_ok.2 ⟨innermost, enter_put_self _ _ _, hdir'⟩⟩

theorem changeAt_of_folderAt {dir' : Directory} (h : root.folderAt names = .ok dir)
    (hchange : change dir = .ok dir') : ∃ changed, root.changeAt change names = .ok changed := by
  induction names generalizing root with
  | nil =>
    cases h
    exact ⟨dir', hchange⟩
  | cons name names ih =>
    obtain ⟨inner, henter, hbelow⟩ := folderAt_cons_eq_ok.1 h
    obtain ⟨innermost, hinner⟩ := ih hbelow
    exact ⟨_, changeAt_cons_eq_ok.2 ⟨inner, innermost, henter, hinner, rfl⟩⟩

/-- If one can still get everywhere from the directory that is changed, one can from the root. -/
theorem spans_of_changeAt (h : root.changeAt change names = .ok changed)
    (hchange : ∀ dir dir', root.folderAt names = .ok dir → change dir = .ok dir' → dir.Spans dir') :
    root.Spans changed := by
  induction names generalizing root changed with
  | nil => exact hchange root changed rfl h
  | cons name names ih =>
    obtain ⟨inner, innermost, henter, hinner, rfl⟩ := changeAt_cons_eq_ok.1 h
    have hspans : inner.Spans innermost := ih hinner fun dir dir' hdir =>
      hchange dir dir' (folderAt_cons_eq_ok.2 ⟨inner, henter, hdir⟩)
    -- Only what is reached through the name is reached in another way than before.
    intro more last hlast
    cases more with
    | nil => exact ⟨_, rfl⟩
    | cons other more =>
      obtain ⟨dir, hdir, hmore⟩ := folderAt_cons_eq_ok.1 hlast
      by_cases hother : other = name
      · subst hother
        cases henter.symm.trans hdir
        obtain ⟨last', hlast'⟩ := hspans more last hmore
        exact ⟨last', folderAt_cons_eq_ok.2 ⟨innermost, enter_put_self _ _ _, hlast'⟩⟩
      · refine ⟨last, folderAt_cons_eq_ok.2 ⟨dir, ?_, hmore⟩⟩
        rw [enter_put_of_ne hother, hdir]

/-! ## The files below -/

/-- The directory that a name holds, or an empty one. -/
def inner (dir : Directory) (name : String) : Directory :=
  match dir.get? name with
  | some (.folder entries) => ⟨entries⟩
  | _ => .empty

/-- The directory that a chain of names leads to, or an empty one. -/
def below (root : Directory) (names : List String) : Directory := names.foldl inner root

theorem inner_of_enter (h : root.enter name = .ok dir) : root.inner name = dir := by
  rw [inner, enter_eq_ok.1 h]

theorem below_empty (names : List String) : empty.below names = empty := by
  induction names with
  | nil => rfl
  | cons name names ih => exact ih

theorem folderAt_or_below (root : Directory) (names : List String) :
    root.folderAt names = .ok (root.below names) ∨ root.below names = empty := by
  induction names generalizing root with
  | nil => exact .inl rfl
  | cons name names ih =>
    show root.folderAt (name :: names) = .ok ((root.inner name).below names) ∨
      (root.inner name).below names = empty
    cases henter : root.enter name with
    | error cause =>
      have hinner : root.inner name = empty := by
        unfold inner
        split
        · next entries hget => simp [enter, hget] at henter
        · rfl
      exact .inr (by rw [hinner, below_empty])
    | ok dir =>
      rw [folderAt_cons, henter, inner_of_enter henter]
      exact ih dir

theorem below_of_folderAt (h : root.folderAt names = .ok dir) : root.below names = dir := by
  induction names generalizing root with
  | nil => exact Except.ok.inj h
  | cons name names ih =>
    obtain ⟨inner, henter, hinner⟩ := folderAt_cons_eq_ok.1 h
    show (root.inner name).below names = dir
    rw [inner_of_enter henter]
    exact ih hinner

theorem nodeAt_of_folderAt (h : root.folderAt names = .ok dir) :
    root.nodeAt names = .ok (.folder dir.entries) := by
  unfold nodeAt
  split
  · next hlast =>
    rw [List.getLast?_eq_none_iff.1 hlast] at h
    cases h
    rfl
  · next name hlast =>
    -- The last name is looked up where the others lead.
    obtain ⟨parents, rfl⟩ := List.getLast?_eq_some_iff.1 hlast
    rw [folderAt_concat] at h
    rw [List.dropLast_concat]
    cases hparent : root.folderAt parents with
    | error cause =>
      rw [hparent] at h
      cases h
    | ok parent =>
      rw [hparent] at h
      dsimp only [bind, Except.bind]
      rw [enter_eq_ok.1 h]

/-- Two trees have the same files in all directories. -/
def SameBelow (root changed : Directory) : Prop :=
  ∀ names name, (changed.below names).file? name = (root.below names).file? name

theorem SameBelow.refl (root : Directory) : root.SameBelow root := fun _ _ => rfl

theorem SameBelow.trans {last : Directory} (h : root.SameBelow changed) (h' : changed.SameBelow last) :
    root.SameBelow last := fun names name => (h' names name).trans (h names name)

/-- **One name** holds another directory with the same files below, or comes to hold or lose an empty one. -/
theorem SameBelow.of_inner (name : String) (hothers : ∀ other, other ≠ name → changed.get? other = root.get? other)
    (hroot : root.file? name = none) (hchanged : changed.file? name = none)
    (hinner : (root.inner name).SameBelow (changed.inner name)) : root.SameBelow changed := by
  intro names file
  cases names with
  | nil =>
    show changed.file? file = root.file? file
    by_cases hfile : file = name
    · rw [hfile, hroot, hchanged]
    · rw [file?, hothers file hfile, file?]
  | cons other names =>
    show ((changed.inner other).below names).file? file = ((root.inner other).below names).file? file
    by_cases hother : other = name
    · rw [hother]
      exact hinner names file
    · rw [inner, hothers other hother, ← inner]

theorem sameBelow_makeFolder (h : root.makeFolder name = .ok changed) : root.SameBelow changed := by
  unfold makeFolder at h
  split at h
  · next hget =>
    cases h
    refine .of_inner name (fun other hother => ?_) ?_ ?_ ?_
    · rw [get?_put, if_neg hother]
    · rw [file?, hget]
    · rw [file?, get?_put, if_pos rfl]
    · rw [inner, hget, inner, get?_put, if_pos rfl]
      exact .refl _
  · cases h

theorem sameBelow_removeFolder (h : root.removeFolder name = .ok changed) : root.SameBelow changed := by
  unfold removeFolder at h
  split at h
  · cases h
  · cases h
  · next hget =>
    cases h
    refine .of_inner name (fun other hother => ?_) ?_ ?_ ?_
    · rw [get?_erase, if_neg hother]
    · rw [file?, hget]
    · rw [file?, get?_erase, if_pos rfl]
    · rw [inner, hget, inner, get?_erase, if_pos rfl]
      exact .refl _
  · cases h

/-- What keeps the files of a directory and all below keeps them wherever the directory is. -/
theorem sameBelow_changeAt (h : root.changeAt change names = .ok changed)
    (hchange : ∀ dir dir', change dir = .ok dir' → dir.SameBelow dir') : root.SameBelow changed := by
  induction names generalizing root changed with
  | nil => exact hchange root changed h
  | cons name names ih =>
    obtain ⟨dir, innermost, henter, hinner, rfl⟩ := changeAt_cons_eq_ok.1 h
    refine .of_inner name (fun other hother => ?_) ?_ ?_ ?_
    · rw [get?_put, if_neg hother]
    · rw [file?, enter_eq_ok.1 henter]
    · rw [file?, get?_put, if_pos rfl]
    · rw [inner_of_enter henter, inner_of_enter (enter_put_self root innermost name)]
      exact ih hinner

end Directory

namespace Volume

variable {volume changed : Volume} {path : String} {dir : Directory} {names : List String} {cause : OsError}

/-! ## Paths in a volume -/

theorem locate_eq_ok : volume.locate path = .ok names ↔
    Path.check path = .ok () ∧ volume.root.walk [] (Path.parts path) = .ok names := by
  unfold locate
  cases Path.check path <;> simp [bind, Except.bind]

/-- **A path leads where it says**, if it leads anywhere. -/
theorem locate_eq (h : volume.locate path = .ok names) : names = Path.resolve path :=
  Directory.walk_eq (.start volume.root) (locate_eq_ok.1 h).2

theorem folder_eq_ok : volume.folder path = .ok dir ↔
    volume.locate path = .ok (Path.resolve path) ∧
      volume.root.folderAt (Path.resolve path) = .ok dir := by
  unfold folder
  cases hlocate : volume.locate path with
  | error cause => simp [bind, Except.bind]
  | ok names =>
    obtain rfl := locate_eq hlocate
    simp [bind, Except.bind]

theorem ne_empty_of_folder (h : volume.folder path = .ok dir) : path ≠ "" := by
  rintro rfl
  have hcheck := (locate_eq_ok.1 (folder_eq_ok.1 h).1).1
  cases hcheck

/-- What there is where a path leads: a directory, or an empty one, with the contents of the files. -/
def snapshot (volume : Volume) (path : String) : Snapshot :=
  ⟨volume.root.below (Path.resolve path), volume.contents⟩

theorem snapshot_of_folder (h : volume.folder path = .ok dir) :
    volume.snapshot path = ⟨dir, volume.contents⟩ := by
  rw [snapshot, Directory.below_of_folderAt (folder_eq_ok.1 h).2]

/-! ## Making directories and taking them away -/

/-- Nothing happens to files. -/
structure Keeps (volume changed : Volume) : Prop where
  contents : changed.contents = volume.contents
  below : volume.root.SameBelow changed.root

theorem Keeps.refl (volume : Volume) : volume.Keeps volume := ⟨rfl, .refl _⟩

theorem Keeps.trans {last : Volume} (h : volume.Keeps changed) (h' : changed.Keeps last) :
    volume.Keeps last :=
  ⟨h'.contents.trans h.contents, h.below.trans h'.below⟩

theorem keeps_changeAt {change : Directory → Except OsError Directory}
    (h : volume.changeAt names change = .ok changed)
    (hchange : ∀ dir dir', change dir = .ok dir' → dir.SameBelow dir') : volume.Keeps changed := by
  unfold changeAt at h
  cases hroot : volume.root.changeAt change names with
  | error cause => simp [hroot, bind, Except.bind] at h
  | ok root =>
    obtain rfl : { volume with root } = changed := by
      simpa [hroot, bind, Except.bind, pure, Except.pure] using h
    exact ⟨rfl, Directory.sameBelow_changeAt hroot hchange⟩

theorem keeps_makeFolder (h : volume.makeFolder path = .ok changed) : volume.Keeps changed := by
  unfold makeFolder at h
  cases hplace : volume.place path with
  | error cause => simp [hplace, bind, Except.bind] at h
  | ok place =>
    rw [hplace] at h
    exact keeps_changeAt h fun _ _ => Directory.sameBelow_makeFolder

theorem keeps_removeFolder (h : volume.removeFolder path = .ok changed) : volume.Keeps changed := by
  unfold removeFolder at h
  cases hplace : volume.place path with
  | error cause => simp [hplace, bind, Except.bind] at h
  | ok place =>
    rw [hplace] at h
    exact keeps_changeAt h fun _ _ => Directory.sameBelow_removeFolder

theorem keeps_ensureFolder (volume : Volume) (path : String) :
    volume.Keeps (volume.ensureFolder path).2 := by
  unfold ensureFolder
  split
  · next hmake => exact keeps_makeFolder hmake
  · split <;> exact .refl _

theorem keeps_makeChain (volume : Volume) (paths : List String) :
    volume.Keeps (volume.makeChain paths).2 := by
  induction paths with
  | nil => exact .refl _
  | cons path outer ih =>
    unfold makeChain
    split
    · split
      · next hmade =>
        rw [hmade] at ih
        exact ih.trans (keeps_ensureFolder _ path)
      · exact ih
    · exact keeps_ensureFolder _ path

/-- **Making a directory** and those that lead to it, as far as that goes. -/
theorem keeps_makeAll (volume : Volume) (path : String) : volume.Keeps (volume.makeAll path).2 :=
  keeps_makeChain volume _

/-! ## Working in a directory -/

theorem disk_of_folder (h : volume.folder path = .ok dir) :
    volume.disk path = ⟨.ok dir, volume.contents, Path.room? path, none, none, []⟩ := by
  have hne := ne_empty_of_folder h
  rw [disk, if_neg hne, if_neg hne, h]

/-- **The directory after an operation** that takes no directories away. -/
theorem folder_update {disk : Disk} {dir' : Directory} (h : volume.folder path = .ok dir)
    (hdisk : disk.folder = .ok dir') (hspans : dir.Spans dir') :
    (volume.update path disk).folder path = .ok dir' ∧
      (volume.update path disk).contents = disk.contents := by
  obtain ⟨hlocate, hdir⟩ := folder_eq_ok.1 h
  obtain ⟨root, hroot⟩ : ∃ root, volume.root.changeAt (fun _ => disk.folder) (Path.resolve path) = .ok root :=
    Directory.changeAt_of_folderAt hdir hdisk
  have hupdate : volume.update path disk = ⟨root, disk.contents⟩ := by
    rw [update, if_neg (ne_empty_of_folder h), hlocate]
    dsimp only [Except.bind]
    rw [hroot]
  obtain ⟨_, _, hbefore, hchange, hafter⟩ := Directory.folderAt_of_changeAt hroot
  rw [hdisk] at hchange
  cases hchange
  have hwhole : volume.root.Spans root := Directory.spans_of_changeAt hroot fun _ _ hbefore hchange => by
    cases hdir.symm.trans hbefore
    cases hdisk.symm.trans hchange
    exact hspans
  rw [hupdate]
  -- The path may go through the directory itself, so it has to be walked anew.
  refine ⟨folder_eq_ok.2 ⟨locate_eq_ok.2 ⟨(locate_eq_ok.1 hlocate).1, ?_⟩, hafter⟩, rfl⟩
  exact Directory.walk_of_spans hwhole (.start volume.root) (.start root) rfl (locate_eq_ok.1 hlocate).2

/-- The next operation at a path finds what the last one left, through the empty path too. -/
theorem disk_update {disk : Disk} {dir' : Directory} (h : (volume.disk path).folder = .ok dir)
    (hdisk : disk.folder = .ok dir') (hspans : dir.Spans dir') :
    (volume.update path disk).disk path =
      { volume.disk path with folder := .ok dir', contents := disk.contents } := by
  by_cases hempty : path = ""
  · subst hempty
    have hupdate : volume.update "" disk = ⟨dir', disk.contents⟩ := by
      rw [update, if_pos rfl, hdisk]
      rfl
    rw [hupdate]
    rfl
  · replace h : volume.folder path = .ok dir := by
      rw [Volume.disk, if_neg hempty] at h
      exact h
    obtain ⟨hfolder, hcontents⟩ := folder_update h hdisk hspans
    rw [disk_of_folder hfolder, disk_of_folder h, hcontents]

/-- An operation that leaves a directory that cannot be reached as it is changes nothing. -/
theorem update_unreached (h : volume.folder path = .error cause) :
    volume.update path (volume.disk path) = volume := by
  by_cases hempty : path = ""
  · subst hempty
    rfl
  · unfold update disk
    simp only [hempty, if_false]
    cases hlocate : volume.locate path with
    | error cause => rfl
    | ok names =>
      dsimp only [Except.bind]
      split
      · next root hroot =>
        obtain ⟨_, _, -, hchange, -⟩ := Directory.folderAt_of_changeAt hroot
        rw [h] at hchange
        cases hchange
      · rfl

end Volume

end LsmTree
