import LsmTree.Proofs.Paths

/-!
# Paths with dots at the end

Single dots stay where they are, so a path may be made as long as one likes without leading elsewhere. The
longer it is, the less room is left for names in its directory.

* **`Path.lengthened`** — a path with dots at the end;
* **`Volume.folder_lengthened`** — the directory that it leads to, and **`Volume.disk_lengthened`** — what an
  operation finds there.
-/

namespace LsmTree

namespace Path

/-- A path followed by single dots, which stay where it leads. -/
def lengthened (path : String) : Nat → String
  | 0 => path
  | dots + 1 => lengthened path dots ++ "/."

variable (path : String) (dots : Nat)

theorem toList_lengthened_succ :
    (lengthened path (dots + 1)).toList = (lengthened path dots).toList ++ ['/', '.'] := by
  rw [lengthened, String.toList_append]
  rfl

theorem utf8ByteSize_lengthened : (lengthened path dots).utf8ByteSize = path.utf8ByteSize + 2 * dots := by
  induction dots with
  | zero => rfl
  | succ dots ih =>
    have hdot : "/.".utf8ByteSize = 2 := by decide
    rw [lengthened, String.utf8ByteSize_append, ih, hdot]
    omega

theorem hasNul_lengthened : hasNul (lengthened path dots) = hasNul path := by
  induction dots with
  | zero => rfl
  | succ dots ih =>
    rw [hasNul, toList_lengthened_succ, List.contains_append, ← hasNul, ih]
    exact Bool.or_false _

theorem parts_lengthened : parts (lengthened path dots) = parts path ++ List.replicate dots "." := by
  induction dots with
  | zero => exact (List.append_nil _).symm
  | succ dots ih =>
    rw [parts, toList_lengthened_succ, List.splitOn_append_cons_self, List.map_append, ← parts, ih,
      List.append_assoc, List.replicate_succ']
    rfl

theorem check_lengthened (hcheck : check path = .ok ()) (hsize : path.utf8ByteSize + 2 * dots ≤ limit) :
    check (lengthened path dots) = .ok () := by
  have hne : lengthened path dots = "" → path = "" := by
    cases dots with
    | zero => exact id
    | succ dots =>
      intro hempty
      have hlong := utf8ByteSize_lengthened path (dots + 1)
      rw [hempty, String.utf8ByteSize_empty] at hlong
      omega
  simp only [check, hasNul_lengthened, utf8ByteSize_lengthened] at hcheck ⊢
  split at hcheck
  · cases hcheck
  · split at hcheck
    · cases hcheck
    · next hnul hempty => rw [if_neg hnul, if_neg (mt hne hempty), if_neg (by omega)]

/-- The room that is left after a slash. -/
theorem room?_lengthened_succ (hnul : hasNul path = false)
    (hroom : limit - (path.utf8ByteSize + 2 * (dots + 1) + 1) < nameLimit) :
    room? (lengthened path (dots + 1)) = some (limit - (path.utf8ByteSize + 2 * (dots + 1) + 1)) := by
  have hjoin : FileName.join (lengthened path (dots + 1)) "" = lengthened path (dots + 1) ++ "/" ++ "" := by
    have hlast : (lengthened path (dots + 1)).toList.getLast? = some '.' := by
      rw [toList_lengthened_succ, List.getLast?_append]
      rfl
    rw [FileName.join, hlast]
    rfl
  have hsize : (FileName.join (lengthened path (dots + 1)) "").utf8ByteSize =
      path.utf8ByteSize + 2 * (dots + 1) + 1 := by
    rw [hjoin, String.utf8ByteSize_append, String.utf8ByteSize_append, utf8ByteSize_lengthened]
    rfl
  simp only [room?, hsize, hasNul_lengthened, hnul]
  rw [if_neg (by simpa using hroom)]

end Path

/-- **Dots stay** where the rest of a path leads, if there is a directory. -/
theorem Directory.walk_dots {root dir : Directory} {trail : Directory.Trail} {parts result : List String}
    (hfrom : trail.From root) (h : root.walk trail parts = .ok result) (hdir : root.folderAt result = .ok dir)
    (dots : Nat) : root.walk trail (parts ++ List.replicate dots ".") = .ok result := by
  induction parts generalizing trail with
  | nil =>
    obtain rfl : trail.passed = result := Except.ok.inj h
    rw [List.nil_append]
    induction dots with
    | zero => rfl
    | succ dots ih => exact (Directory.walk_cons_eq_ok hfrom).2 ⟨dir, hdir, rfl, ih⟩
  | cons part parts ih =>
    obtain ⟨here, hhere, hallow, hrest⟩ := (Directory.walk_cons_eq_ok hfrom).1 h
    exact (Directory.walk_cons_eq_ok hfrom).2 ⟨here, hhere, hallow, ih (hfrom.onward hhere part) hrest⟩

namespace Volume

variable {volume : Volume} {path : String} {dir : Directory}

theorem folder_lengthened (h : volume.folder path = .ok dir) {dots : Nat}
    (hsize : path.utf8ByteSize + 2 * dots ≤ Path.limit) :
    volume.folder (Path.lengthened path dots) = .ok dir := by
  obtain ⟨hlocate, hdir⟩ := folder_eq_ok.1 h
  obtain ⟨hcheck, hwalk⟩ := locate_eq_ok.1 hlocate
  have hlengthened : volume.locate (Path.lengthened path dots) = .ok (Path.resolve path) := by
    refine locate_eq_ok.2 ⟨Path.check_lengthened path dots hcheck hsize, ?_⟩
    rw [Path.parts_lengthened]
    exact Directory.walk_dots (.start volume.root) hwalk hdir dots
  rw [folder, hlengthened]
  exact hdir

/-- **What an operation finds** at a path with dots at the end. -/
theorem disk_lengthened (h : volume.folder path = .ok dir) {dots room : Nat}
    (hsize : path.utf8ByteSize + 2 * (dots + 1) + 1 + room = Path.limit) (hroom : room < Path.nameLimit) :
    volume.disk (Path.lengthened path (dots + 1)) =
      ⟨.ok dir, volume.contents, some room, none, none, []⟩ := by
  have hnul : Path.hasNul path = false := by
    have hcheck := (locate_eq_ok.1 (folder_eq_ok.1 h).1).1
    cases hnul : Path.hasNul path with
    | false => rfl
    | true =>
      rw [Path.check, if_pos hnul] at hcheck
      cases hcheck
  obtain rfl : Path.limit - (path.utf8ByteSize + 2 * (dots + 1) + 1) = room := by omega
  rw [disk_of_folder (folder_lengthened h (by omega)), Path.room?_lengthened_succ path dots hnul hroom]

end Volume

end LsmTree
