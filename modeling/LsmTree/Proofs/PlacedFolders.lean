import LsmTree.Proofs.FilePaths
import LsmTree.Proofs.Placement

/-!
# Directories made and taken away at a path

What is in the way of a file is put there from outside, by the path of the directory and the name. Where the
path leads it still leads afterwards, since one can get wherever one could; only what is taken away must not
be on the way, as it may be for a path that leads up again.

* **`Volume.place_join`** — the place of a name in the directory at a path;
* **`Volume.makeAll_join`**, **`Volume.removeFolder_join`** — what becomes of that directory;
* **`Volume.ShadowedBy.makeAll`**, **`Volume.ShadowedBy.removeFolder`** — the same on a disk on which operations
  there can be followed.
-/

namespace LsmTree

/-! ## Names in the directory at a path -/

namespace FileName

variable {dir name : String}

theorem utf8ByteSize_join (dir name : String) :
    (join dir name).utf8ByteSize = (join dir "").utf8ByteSize + name.utf8ByteSize := by
  unfold join
  split <;> simp [Nat.add_assoc]

theorem join_of_ne_empty (h : dir ≠ "") (name : String) :
    (∃ before, dir = before ++ "/" ∧ join dir name = dir ++ name) ∨ join dir name = dir ++ "/" ++ name := by
  unfold join
  split
  · next hlast => exact absurd (String.toList_eq_nil_iff.1 (List.getLast?_eq_none_iff.1 hlast)) h
  · next hlast =>
    obtain ⟨before, hbefore⟩ := List.getLast?_eq_some_iff.1 hlast
    exact .inl ⟨String.ofList before, String.toList_injective (by simp [hbefore]), rfl⟩
  · exact .inr rfl

end FileName

namespace Path

variable {path name : String}

theorem parts_append_slash (path rest : String) : parts (path ++ "/" ++ rest) = parts path ++ parts rest := by
  have hlist : (path ++ "/" ++ rest).toList = path.toList ++ '/' :: rest.toList := by simp
  rw [parts, hlist, List.splitOn_append_cons_self, List.map_append]
  rfl

theorem parts_of_no_slash (h : '/' ∉ name.toList) : parts name = [name] := by
  rw [parts, List.splitOn_eq_singleton h]
  simp

/-- **The parts of a path in a directory**: a slash at the end of the path of the directory makes an empty
part, which the name takes the place of. -/
theorem parts_join (hpath : path ≠ "") (h : FileName.Proper name) :
    ∃ front, parts (FileName.join path name) = front ++ [name] ∧
      (parts path = front ∨ parts path = front ++ [""]) := by
  rcases FileName.join_of_ne_empty hpath name with ⟨before, hbefore, hjoin⟩ | hjoin
  · refine ⟨parts before, ?_, .inr ?_⟩
    · rw [hjoin, hbefore, parts_append_slash, parts_of_no_slash h.no_slash]
    · have hsplit := parts_append_slash before ""
      rw [String.append_empty] at hsplit
      rw [hbefore, hsplit]
      rfl
  · exact ⟨parts path, by rw [hjoin, parts_append_slash, parts_of_no_slash h.no_slash], .inl rfl⟩

/-- A name that can be looked up in the directory at a path. -/
structure Reaches (path name : String) : Prop where
  proper : FileName.Proper name
  no_nul : hasNul name = false
  short : name.utf8ByteSize ≤ nameLimit
  fits : fitsIn (room? path) name = true

theorem hasNul_append (a b : String) : hasNul (a ++ b) = (hasNul a || hasNul b) := by
  simp [hasNul]

theorem check_eq_ok : check path = .ok () ↔
    hasNul path = false ∧ path ≠ "" ∧ path.utf8ByteSize ≤ limit := by
  unfold check
  split
  · next h => simp [h]
  · next h =>
    split
    · next h' => simp [h']
    · next h' =>
      split
      · next h'' => simpa using fun _ _ => h''
      · next h'' => simpa [h'] using ⟨by simpa using h, Nat.not_lt.1 h''⟩

theorem check_join (h : Reaches path name) (hcheck : check path = .ok ()) :
    check (FileName.join path name) = .ok () := by
  obtain ⟨hnul, hne, -⟩ := check_eq_ok.1 hcheck
  have hsize := FileName.utf8ByteSize_join path name
  have hpos : 0 < name.utf8ByteSize := Nat.pos_of_ne_zero fun hzero =>
    h.proper.ne_empty (String.utf8ByteSize_eq_zero_iff.1 hzero)
  refine check_eq_ok.2 ⟨?_, ?_, ?_⟩
  · rcases FileName.join_of_ne_empty hne name with ⟨-, -, hjoin⟩ | hjoin
    · rw [hjoin, hasNul_append, hnul, h.no_nul]
      rfl
    · rw [hjoin, hasNul_append, hasNul_append, hnul, h.no_nul]
      decide
  · intro hempty
    rw [hempty] at hsize
    simp at hsize
    omega
  · have hfits := h.fits
    have hshort := h.short
    dsimp only [room?] at hfits
    rw [hsize]
    split at hfits
    · next hroom =>
      have hroom := hroom.resolve_left (by simp [hnul])
      unfold nameLimit at hroom hshort
      unfold limit at hroom ⊢
      omega
    · simp only [fitsIn, Option.all_some, decide_eq_true_eq] at hfits
      omega

/-- **The end of a path in a directory** is the name. -/
theorem ending?_join {front : List String} (h : FileName.Proper name)
    (hparts : parts (FileName.join path name) = front ++ [name]) :
    ending? (FileName.join path name) = some ⟨front, name, false⟩ := by
  have hdots : ¬ (name = "." ∨ name = "..") := not_or.2 ⟨h.ne_dot, h.ne_up⟩
  simp [ending?, hparts, hdots, h.ne_empty]

/-- What never leads up only leads further down. -/
theorem prefix_foldl_follow {parts : List String} (h : ".." ∉ parts) (names : List String) :
    names <+: parts.foldl follow names := by
  induction parts generalizing names with
  | nil => exact List.prefix_rfl
  | cons part parts ih =>
    obtain ⟨hpart, hparts⟩ := not_or.1 (mt List.mem_cons.2 h)
    refine List.IsPrefix.trans ?_ (ih hparts (follow names part))
    unfold follow
    rw [if_neg (Ne.symm hpart)]
    split
    · exact List.prefix_rfl
    · exact List.prefix_append _ _

end Path

namespace Directory

variable {root changed dir : Directory} {names parts result : List String} {trail other : Trail}

/-- An empty part at the end stays in place. -/
theorem walk_of_concat_empty (hfrom : trail.From root) (h : root.walk trail (parts ++ [""]) = .ok result) :
    root.walk trail parts = .ok result := by
  induction parts generalizing trail with
  | nil =>
    obtain ⟨here, -, -, hrest⟩ := (walk_cons_eq_ok hfrom).1 h
    exact hrest
  | cons part parts ih =>
    obtain ⟨here, hhere, hallow, hrest⟩ := (walk_cons_eq_ok hfrom).1 h
    exact (walk_cons_eq_ok hfrom).2 ⟨here, hhere, hallow, ih (hfrom.onward hhere part) hrest⟩

theorem changeAt_refused {change : Directory → Except OsError Directory} {cause : OsError}
    (h : root.folderAt names = .ok dir) (hchange : change dir = .error cause) :
    root.changeAt change names = .error cause := by
  induction names generalizing root with
  | nil =>
    cases h
    exact hchange
  | cons name names ih =>
    obtain ⟨inner, henter, hbelow⟩ := folderAt_cons_eq_ok.1 h
    rw [changeAt, henter]
    dsimp only [bind, Except.bind]
    rw [ih hbelow]

theorem folderAt_of_prefix (h : names <+: result) (hdir : root.folderAt result = .ok dir) :
    ∃ outer, root.folderAt names = .ok outer := by
  obtain ⟨more, rfl⟩ := h
  rw [folderAt, List.foldlM_append] at hdir
  change (root.folderAt names).bind _ = _ at hdir
  cases houter : root.folderAt names with
  | error cause =>
    rw [houter] at hdir
    cases hdir
  | ok outer => exact ⟨outer, rfl⟩

/-- **A path that never leads up** leads where it led as long as that is there: it only passes what leads
there. -/
theorem walk_of_straight (hstraight : ".." ∉ parts) (hfrom : trail.From root) (hother : other.From changed)
    (hpassed : other.passed = trail.passed) (hdir : changed.folderAt result = .ok dir)
    (h : root.walk trail parts = .ok result) : changed.walk other parts = .ok result := by
  induction parts generalizing trail other with
  | nil =>
    rw [← Except.ok.inj h]
    exact congrArg Except.ok hpassed
  | cons part parts ih =>
    have hresult := walk_eq hfrom h
    obtain ⟨here, hhere, hallow, hrest⟩ := (walk_cons_eq_ok hfrom).1 h
    obtain ⟨there, hthere⟩ : ∃ there, changed.folderAt other.passed = .ok there :=
      folderAt_of_prefix (hpassed ▸ hresult ▸ Path.prefix_foldl_follow hstraight _) hdir
    refine (walk_cons_eq_ok hother).2 ⟨there, hthere, hallow, ?_⟩
    refine ih (fun hmem => hstraight (List.mem_cons_of_mem _ hmem)) (hfrom.onward hhere part)
      (hother.onward hthere part) ?_ hrest
    rw [Trail.passed_onward, Trail.passed_onward, hpassed]

end Directory

namespace Volume

variable {volume : Volume} {path name : String} {dir : Directory}

/-- **The place of a name** in the directory at a path. -/
theorem place_join (h : volume.folder path = .ok dir) (hname : Path.Reaches path name) :
    volume.place (FileName.join path name) = .ok ⟨Path.resolve path, name, false⟩ := by
  obtain ⟨hlocate, hdir⟩ := folder_eq_ok.1 h
  obtain ⟨hcheck, hwalk⟩ := locate_eq_ok.1 hlocate
  obtain ⟨front, hparts, hfront⟩ := Path.parts_join (ne_empty_of_folder h) hname.proper
  have hparents : volume.root.walk [] front = .ok (Path.resolve path) := by
    rcases hfront with hsame | hslash
    · rwa [hsame] at hwalk
    · rw [hslash] at hwalk
      exact Directory.walk_of_concat_empty (.start volume.root) hwalk
  have hshort : Path.checkName name = .ok () := if_neg (Nat.not_lt.2 hname.short)
  rw [place, Path.check_join hname hcheck, Path.ending?_join hname.proper hparts]
  simp [bind, Except.bind, hparents, hdir, hshort, pure, Except.pure]

variable {changed : Volume} {dir' : Directory} {change : Directory → Except OsError Directory}

theorem changeAt_eq_ok {names : List String} : volume.changeAt names change = .ok changed ↔
    ∃ root, volume.root.changeAt change names = .ok root ∧ { volume with root } = changed := by
  unfold changeAt
  cases volume.root.changeAt change names <;> simp [bind, Except.bind, pure, Except.pure]

/-- **The directory at a path, changed**, if the path still leads there afterwards. -/
theorem folder_changeAt (h : volume.folder path = .ok dir) (hchange : change dir = .ok dir')
    (hwalk : ∀ root, volume.root.changeAt change (Path.resolve path) = .ok root →
      root.folderAt (Path.resolve path) = .ok dir' →
        root.walk [] (Path.parts path) = .ok (Path.resolve path)) :
    ∃ changed, volume.changeAt (Path.resolve path) change = .ok changed ∧
      changed.folder path = .ok dir' ∧ changed.contents = volume.contents := by
  obtain ⟨hlocate, hdir⟩ := folder_eq_ok.1 h
  obtain ⟨root, hroot⟩ := Directory.changeAt_of_folderAt hdir hchange
  obtain ⟨_, _, hbefore, hchange', hafter⟩ := Directory.folderAt_of_changeAt hroot
  cases hdir.symm.trans hbefore
  cases hchange.symm.trans hchange'
  refine ⟨_, changeAt_eq_ok.2 ⟨root, hroot, rfl⟩, folder_eq_ok.2 ⟨?_, hafter⟩, rfl⟩
  exact locate_eq_ok.2 ⟨(locate_eq_ok.1 hlocate).1, hwalk root hroot hafter⟩

theorem changeAt_refused {cause : OsError} (h : volume.folder path = .ok dir)
    (hchange : change dir = .error cause) : volume.changeAt (Path.resolve path) change = .error cause := by
  rw [changeAt, Directory.changeAt_refused (folder_eq_ok.1 h).2 hchange]
  rfl

theorem makeAll_eq {path : String} (hne : path ≠ "") (hfound : volume.makeFolder path ≠ .error .noEntry) :
    volume.makeAll path = volume.ensureFolder path := by
  rw [makeAll, Path.ancestors, if_neg hne, makeChain]
  split
  · next hnone => exact absurd hnone hfound
  · rfl

theorem ensureFolder_of_ok {path : String} (h : volume.makeFolder path = .ok changed) :
    (volume.ensureFolder path).2 = changed := by
  rw [ensureFolder, h]

theorem ensureFolder_of_error {path : String} {cause : OsError} (h : volume.makeFolder path = .error cause) :
    (volume.ensureFolder path).2 = volume := by
  rw [ensureFolder, h]
  dsimp only
  split <;> rfl

/-- **A directory is made** in the one at a path, unless the name is taken. -/
theorem makeAll_join (h : volume.folder path = .ok dir) (hname : Path.Reaches path name) :
    match dir.makeFolder name with
    | .ok dir' => (volume.makeAll (FileName.join path name)).2.folder path = .ok dir' ∧
        (volume.makeAll (FileName.join path name)).2.contents = volume.contents
    | .error _ => (volume.makeAll (FileName.join path name)).2 = volume := by
  have hcheck := Path.check_join hname (locate_eq_ok.1 (folder_eq_ok.1 h).1).1
  have hne := (Path.check_eq_ok.1 hcheck).2.1
  have hmake : volume.makeFolder (FileName.join path name) =
      volume.changeAt (Path.resolve path) fun dir => dir.makeFolder name := by
    rw [makeFolder, place_join h hname]
    rfl
  cases hfree : dir.get? name with
  | none =>
    have hmade : dir.makeFolder name = .ok (dir.put name (.folder [])) := by rw [Directory.makeFolder, hfree]
    have hspans : dir.Spans (dir.put name (.folder [])) := .of_enter fun other inner henter => by
      rw [Directory.enter_put_of_ne ?_, henter]
      rintro rfl
      rw [Directory.enter, hfree] at henter
      cases henter
    -- One can still get everywhere, so the path leads where it led.
    have hstays (root : Directory)
        (hroot : volume.root.changeAt (fun dir => dir.makeFolder name) (Path.resolve path) = .ok root) :
        root.walk [] (Path.parts path) = .ok (Path.resolve path) := by
      have hwhole : volume.root.Spans root :=
        Directory.spans_of_changeAt hroot fun before after hbefore hchange => by
          cases (folder_eq_ok.1 h).2.symm.trans hbefore
          cases hmade.symm.trans hchange
          exact hspans
      exact Directory.walk_of_spans hwhole (.start volume.root)
        (.start root) rfl (locate_eq_ok.1 (folder_eq_ok.1 h).1).2
    obtain ⟨changed, hchanged, hfolder, hcontents⟩ :=
      folder_changeAt h hmade fun root hroot _ => hstays root hroot
    rw [hchanged] at hmake
    rw [hmade, makeAll_eq hne (by rw [hmake]; simp), ensureFolder_of_ok hmake]
    exact ⟨hfolder, hcontents⟩
  | some node =>
    have hrefused : dir.makeFolder name = .error .alreadyExists := by rw [Directory.makeFolder, hfree]
    rw [changeAt_refused h hrefused] at hmake
    rw [hrefused, makeAll_eq hne (by rw [hmake]; simp), ensureFolder_of_error hmake]

/-- **A directory is taken away** from the one at a path, if there is one and it is empty. The path must not
lead up, since it could pass through what is taken away. -/
theorem removeFolder_join (h : volume.folder path = .ok dir) (hname : Path.Reaches path name)
    (hstraight : ".." ∉ Path.parts path) :
    match dir.removeFolder name with
    | .ok dir' => ∃ changed, volume.removeFolder (FileName.join path name) = .ok changed ∧
        changed.folder path = .ok dir' ∧ changed.contents = volume.contents
    | .error cause => volume.removeFolder (FileName.join path name) = .error cause := by
  have hremove : volume.removeFolder (FileName.join path name) =
      volume.changeAt (Path.resolve path) fun dir => dir.removeFolder name := by
    rw [removeFolder, place_join h hname]
    rfl
  rw [hremove]
  cases hremoved : dir.removeFolder name with
  | ok dir' =>
    refine folder_changeAt h hremoved fun root _ hafter => ?_
    exact Directory.walk_of_straight hstraight (.start volume.root)
      (.start root) rfl hafter (locate_eq_ok.1 (folder_eq_ok.1 h).1).2
  | error cause => exact changeAt_refused h hremoved

end Volume

/-! ## Directories beside those that are in the way -/

namespace Directory

variable {room : Option Nat} {dir : Directory} {name : String}

theorem makeFolder_shaded (h : fitsIn room name = true) :
    (dir.shaded room).makeFolder name = (dir.makeFolder name).map (shaded room) := by
  unfold makeFolder
  rw [get?_shaded_of_fits h]
  cases dir.get? name with
  | none => exact congrArg Except.ok (shaded_put h _)
  | some node => rfl

theorem removeFolder_shaded (h : fitsIn room name = true) :
    (dir.shaded room).removeFolder name = (dir.removeFolder name).map (shaded room) := by
  unfold removeFolder
  rw [get?_shaded_of_fits h]
  split
  · rfl
  · rfl
  · exact congrArg Except.ok (shaded_erase h)
  · rfl

end Directory

namespace Volume.ShadowedBy

variable {volume changed : Volume} {path name : String} {dir dir' : Directory} {s : Snapshot}

/-- What only changes the directory at the path is followed on the disk. -/
theorem of_changed (h : volume.ShadowedBy path (.ofSnapshot s)) (hdir : volume.folder path = .ok dir)
    (hchanged : changed.folder path = .ok dir') (hcontents : changed.contents = volume.contents) :
    changed.ShadowedBy path (.ofSnapshot { s with names := dir'.shaded (Path.room? path) }) := by
  have hshown := h.shown_eq
  rw [shown, snapshot_of_folder hdir] at hshown
  have hcontents : changed.contents = s.contents := hcontents.trans (congrArg Snapshot.contents hshown)
  rw [← hcontents]
  exact of_folder hchanged

theorem names_eq (h : volume.ShadowedBy path (.ofSnapshot s)) (hdir : volume.folder path = .ok dir) :
    s.names = dir.shaded (Path.room? path) := by
  have hshown := h.shown_eq
  rw [shown, snapshot_of_folder hdir] at hshown
  exact (congrArg Snapshot.names hshown).symm

/-- **A directory is made** in the one at the path. -/
theorem makeAll (h : volume.ShadowedBy path (.ofSnapshot s)) (hname : Path.Reaches path name) :
    (volume.makeAll (FileName.join path name)).2.ShadowedBy path
      (.ofSnapshot { s with names := (s.names.makeFolder name).toOption.getD s.names }) := by
  obtain ⟨dir, hdir, -⟩ := id h
  have hmade := makeAll_join hdir hname
  rw [h.names_eq hdir, Directory.makeFolder_shaded hname.fits]
  cases hmake : dir.makeFolder name with
  | ok dir' =>
    rw [hmake] at hmade
    exact h.of_changed hdir hmade.1 hmade.2
  | error cause =>
    rw [hmake] at hmade
    dsimp only at hmade
    rw [hmade]
    show volume.ShadowedBy path (.ofSnapshot ⟨dir.shaded _, s.contents⟩)
    rw [← h.names_eq hdir]
    exact h

/-- **A directory is taken away** from the one at the path. -/
theorem removeFolder (h : volume.ShadowedBy path (.ofSnapshot s)) (hname : Path.Reaches path name)
    (hstraight : ".." ∉ Path.parts path) :
    ((volume.removeFolder (FileName.join path name)).toOption.getD volume).ShadowedBy path
      (.ofSnapshot { s with names := (s.names.removeFolder name).toOption.getD s.names }) := by
  obtain ⟨dir, hdir, -⟩ := id h
  have hremoved := removeFolder_join hdir hname hstraight
  rw [h.names_eq hdir, Directory.removeFolder_shaded hname.fits]
  cases hremove : dir.removeFolder name with
  | ok dir' =>
    rw [hremove] at hremoved
    obtain ⟨changed, hchanged, hfolder, hcontents⟩ := hremoved
    rw [hchanged]
    exact h.of_changed hdir hfolder hcontents
  | error cause =>
    rw [hremove] at hremoved
    dsimp only at hremoved
    rw [hremoved]
    show volume.ShadowedBy path (.ofSnapshot ⟨dir.shaded _, s.contents⟩)
    rw [← h.names_eq hdir]
    exact h

end Volume.ShadowedBy

end LsmTree
