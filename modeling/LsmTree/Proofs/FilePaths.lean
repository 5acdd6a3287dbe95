import LsmTree.Proofs.Paths
import LsmTree.Proofs.SegmentNames

/-!
# Paths of the files of a store

The path of a file is the path of its directory and the name of the file. However the directory is spelt, the
name comes last. So a path tells what its file is for, and no two files of a store get in each other's way:

* **`FileName.components_join`** — the path has the parts of the directory and then those of the name;
* **`FileName.parse?_join`** — it is read by the name alone;
* **`Path.resolve_join`** — it leads to that name in the place where the directory is;
* **`StoreFile.resolve_path_injective`** — different files are in different places;
* **`FileName.paths_read_back_and_differ`** — the paths of segments read back as what they are, those of
  other files do not read as segments, and all of them differ.
-/

namespace LsmTree

/-! ## Parts of paths -/

namespace FileName

variable {dir name : String}

/-- A slash comes between the parts of two paths. -/
theorem components_append_slash (path rest : String) :
    components (path ++ "/" ++ rest) = components path ++ components rest := by
  have hlist : (path ++ "/" ++ rest).toList = path.toList ++ '/' :: rest.toList := by simp
  rw [components, hlist, List.splitOn_append_cons_self, List.filter_append, List.map_append]
  rfl

theorem components_empty : components "" = [] := rfl

/-- **The parts of a path in a directory** are those of the directory and then those of the name. -/
theorem components_join (dir name : String) :
    components (join dir name) = components dir ++ components name := by
  unfold join
  split
  · next hlast =>
    obtain rfl : dir = "" := String.toList_eq_nil_iff.1 (List.getLast?_eq_none_iff.1 hlast)
    rw [String.empty_append, components_empty, List.nil_append]
  · next hlast =>
    -- Nothing follows the slash that is there, so it makes no part.
    obtain ⟨before, hbefore⟩ := List.getLast?_eq_some_iff.1 hlast
    obtain rfl : dir = String.ofList before ++ "/" ++ "" := String.toList_injective (by simp [hbefore])
    rw [components_append_slash, String.append_empty, components_append_slash, components_empty,
      List.append_nil]
  · exact components_append_slash dir name

/-- A name that is one part of a path, and one that leads down. -/
structure Proper (name : String) : Prop where
  no_slash : '/' ∉ name.toList
  ne_empty : name ≠ ""
  ne_dot : name ≠ "."
  ne_up : name ≠ ".."

theorem Proper.of_length (hslash : '/' ∉ name.toList) (hlength : 2 < name.toList.length) : Proper name := by
  have hlonger (short : String) (hshort : short.toList.length ≤ 2) : name ≠ short := by
    rintro rfl
    omega
  exact ⟨hslash, hlonger "" (by decide), hlonger "." (by decide), hlonger ".." (by decide)⟩

theorem Proper.components_eq (h : Proper name) : components name = [name] := by
  have hempty : name.toList ≠ [] := mt String.toList_eq_nil_iff.1 h.ne_empty
  have hdot : name.toList ≠ ['.'] := fun heq => h.ne_dot (String.toList_injective heq)
  rw [components, List.splitOn_eq_singleton h.no_slash]
  simp [hempty, hdot]

/-- **The last part** of a path in a directory is the name. -/
theorem last?_join (h : Proper name) : last? (join dir name) = some name := by
  rw [last?, components_join, h.components_eq, List.getLast?_concat]
  exact if_neg h.ne_up

/-- **A path is read by its name.** -/
theorem parse?_join (h : Proper name) : parse? (join dir name) = parseName? name := by
  rw [parse?, last?_join h, Option.bind_some]

/-- What is put after the path of a file is put after its name. -/
theorem temporary_join (dir name : String) : temporary (join dir name) = join dir (temporary name) := by
  have happend (front : String) : temporary (front ++ name) = front ++ temporary name :=
    String.toList_injective (by simp [temporary])
  unfold join
  split
  · exact happend dir
  · exact happend dir
  · exact happend (dir ++ "/")

end FileName

namespace Path

variable {dir name : String}

/-- The parts that `components` leaves out stay in place. -/
theorem foldl_follow_filter (parts : List (List Char)) (names : List String) :
    ((parts.filter fun part => part ≠ [] ∧ part ≠ ['.']).map String.ofList).foldl follow names =
      (parts.map String.ofList).foldl follow names := by
  induction parts generalizing names with
  | nil => rfl
  | cons part parts ih =>
    rw [List.filter_cons, List.map_cons, List.foldl_cons]
    split
    · exact ih (follow names (String.ofList part))
    · next hstays =>
      rw [decide_eq_true_iff, not_and_or, not_not, not_not] at hstays
      have hfollow : follow names (String.ofList part) = names := by
        rcases hstays with rfl | rfl <;> rfl
      rw [ih, hfollow]

/-- Where a path leads can be told from its parts without those that stay in place. -/
theorem resolve_eq (path : String) : resolve path = (FileName.components path).foldl follow [] :=
  (foldl_follow_filter (path.toList.splitOn '/') []).symm

/-- **A path in a directory leads to the name** in the place where the directory is. -/
theorem resolve_join (h : FileName.Proper name) : resolve (FileName.join dir name) = resolve dir ++ [name] := by
  rw [resolve_eq, FileName.components_join, h.components_eq, List.foldl_append, ← resolve_eq]
  show follow (resolve dir) name = _
  rw [follow, if_neg (not_or.2 ⟨h.ne_empty, h.ne_dot⟩), if_neg h.ne_up]

end Path

/-! ## Names of the store -/

namespace FileName

variable {name : String}

theorem slash_not_mem_digits (n : Nat) : '/' ∉ Text.Decimal.digits n := by
  have hdigit : ∀ d : Fin 10, Text.Decimal.digit d ≠ '/' := by decide
  fun_induction Text.Decimal.digits n with
  | case1 n h => simpa using (hdigit ⟨n, h⟩).symm
  | case2 n h ih => simpa [ih] using (hdigit ⟨n % 10, Nat.mod_lt n (by decide)⟩).symm

theorem proper_segment (half : Half) (generation : UInt64) : Proper (segment half generation) := by
  refine .of_length ?_ (by simp [segment, lead])
  have hdigits := slash_not_mem_digits generation.toNat
  cases half <;> simp [segment, lead, Text.Decimal.padded, Half.extension, hdigits]

theorem proper_manifest : Proper manifest := .of_length (by decide) (by decide)

theorem Proper.temporary (h : Proper name) : Proper (temporary name) := by
  refine .of_length ?_ (by simp [FileName.temporary, temporaryExtension])
  simp [FileName.temporary, temporaryExtension, h.no_slash]

/-- A temporary name is not that of a segment. -/
theorem parseName?_temporary (h : name ≠ "") : parseName? (temporary name) = none := by
  rw [parseName?, splitExtension_temporary (mt String.toList_eq_nil_iff.1 h)]
  rfl

end FileName

/-- What a file of the store is for. -/
inductive FileRole
  | segment (half : Half) (generation : UInt64)
  | manifest
  deriving DecidableEq, Repr

namespace FileRole

/-- The name of the complete file. -/
def name : FileRole → String
  | .segment half generation => FileName.segment half generation
  | .manifest => FileName.manifest

theorem proper_name (role : FileRole) : FileName.Proper role.name := by
  cases role with
  | segment half generation => exact FileName.proper_segment half generation
  | manifest => exact FileName.proper_manifest

theorem not_isTemporary_name (role : FileRole) : FileName.isTemporary role.name = false := by
  cases role with
  | segment half generation => exact FileName.not_isTemporary_segment half generation
  | manifest => exact FileName.not_isTemporary_manifest

theorem isTemporary_temporary_name (role : FileRole) :
    FileName.isTemporary (FileName.temporary role.name) = true :=
  FileName.isTemporary_temporary (mt String.toList_eq_nil_iff.1 role.proper_name.ne_empty)

theorem name_injective : Function.Injective name := by
  intro role other h
  cases role with
  | segment half generation =>
    cases other with
    | segment half' generation' =>
      obtain ⟨rfl, rfl⟩ := FileName.segment_injective h
      rfl
    | manifest => exact absurd h (FileName.segment_ne_manifest half generation)
  | manifest =>
    cases other with
    | segment half generation => exact absurd h (FileName.manifest_ne_segment half generation)
    | manifest => rfl

/-- The name of a complete file is not that of one that is still written. -/
theorem name_ne_temporary_name (role other : FileRole) : role.name ≠ FileName.temporary other.name :=
  (FileName.ne_of_isTemporary other.isTemporary_temporary_name role.not_isTemporary_name).symm

end FileRole

/-- A file that the store makes: it is written under a temporary name, and gets its own name when it is
complete. -/
inductive StoreFile
  | complete (role : FileRole)
  | temporary (role : FileRole)
  deriving DecidableEq, Repr

namespace StoreFile

/-- The name of a file in its directory. -/
def name : StoreFile → String
  | .complete role => role.name
  | .temporary role => FileName.temporary role.name

/-- The path of a file in a directory. The extension of a temporary file is put after the whole path. -/
def path (dir : String) : StoreFile → String
  | .complete role => FileName.join dir role.name
  | .temporary role => FileName.temporary (FileName.join dir role.name)

/-- That is the path of its name in the directory. -/
theorem path_eq (dir : String) (file : StoreFile) : file.path dir = FileName.join dir file.name := by
  cases file with
  | complete role => rfl
  | temporary role => exact FileName.temporary_join dir role.name

theorem proper_name (file : StoreFile) : FileName.Proper file.name := by
  cases file with
  | complete role => exact role.proper_name
  | temporary role => exact role.proper_name.temporary

/-- **Each file has a name of its own.** -/
theorem name_injective : Function.Injective name := by
  intro file other h
  cases file with
  | complete role =>
    cases other with
    | complete role' => rw [FileRole.name_injective h]
    | temporary role' => exact absurd h (role.name_ne_temporary_name role')
  | temporary role =>
    cases other with
    | complete role' => exact absurd h.symm (role'.name_ne_temporary_name role)
    | temporary role' => rw [FileRole.name_injective (FileName.temporary_injective h)]

/-- **Different files are in different places**, wherever the directory is. -/
theorem resolve_path_injective (dir : String) :
    Function.Injective fun file => Path.resolve (path dir file) := by
  intro file other h
  simp only [path_eq, Path.resolve_join (proper_name _)] at h
  exact name_injective (List.singleton_inj.1 (List.append_cancel_left h))

end StoreFile

namespace FileName

/-- **A path tells what its file is for.** In any directory the path of a half of a segment reads back as that
half and its generation, and no path of another file reads as that of a segment. Any two files have different
paths: the texts differ, and so do their parts and the places that they lead to. -/
theorem paths_read_back_and_differ (dir : String) :
    (∀ half generation,
      parse? (join dir (segment half generation)) = some (generation, half) ∧
        parse? (temporary (join dir (segment half generation))) = none) ∧
    parse? (join dir manifest) = none ∧ parse? (join dir (temporary manifest)) = none ∧
    ∀ file other : StoreFile, file ≠ other →
      file.path dir ≠ other.path dir ∧ components (file.path dir) ≠ components (other.path dir) ∧
        Path.resolve (file.path dir) ≠ Path.resolve (other.path dir) := by
  refine ⟨fun half generation => ⟨?_, ?_⟩, ?_, ?_, fun file other hne => ?_⟩
  · rw [parse?_join (proper_segment half generation), parseName?_segment]
  · have hproper := proper_segment half generation
    rw [temporary_join, parse?_join hproper.temporary, parseName?_temporary hproper.ne_empty]
  · rw [parse?_join proper_manifest, parseName?_manifest]
  · rw [parse?_join proper_manifest.temporary, parseName?_temporary proper_manifest.ne_empty]
  · -- Where a path leads is told by its parts, and those by its text.
    have hplaces : Path.resolve (file.path dir) ≠ Path.resolve (other.path dir) :=
      (StoreFile.resolve_path_injective dir).ne hne
    have hparts : components (file.path dir) ≠ components (other.path dir) := by
      intro h
      rw [Path.resolve_eq, Path.resolve_eq, h] at hplaces
      exact hplaces rfl
    exact ⟨mt (congrArg components) hparts, hparts, hplaces⟩

/-- The last generation that there is, in a directory whose path passes through what looks like a segment. -/
theorem paths_read_back_and_differ_upward :
    let dir := "./db/segment_000007.data/.."
    let file := StoreFile.complete (.segment .index 18446744073709551615)
    let other := StoreFile.temporary (.segment .index 18446744073709551615)
    file.path dir = "./db/segment_000007.data/../segment_18446744073709551615.index" ∧
      parse? (file.path dir) = some (18446744073709551615, .index) ∧ parse? (other.path dir) = none ∧
      file ≠ other ∧ Path.resolve (file.path dir) = ["db", "segment_18446744073709551615.index"] ∧
      Path.resolve (file.path dir) ≠ Path.resolve (other.path dir) := by
  intro dir file other
  obtain ⟨hsegments, -, -, hdiffer⟩ := paths_read_back_and_differ dir
  obtain ⟨hread, htemporary⟩ := hsegments .index 18446744073709551615
  have hne : file ≠ other := by decide
  exact ⟨by decide +kernel, hread, htemporary, hne, by decide +kernel, (hdiffer file other hne).2.2⟩

end FileName

end LsmTree
