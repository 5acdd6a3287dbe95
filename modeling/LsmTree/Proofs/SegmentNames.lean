import LsmTree.FileName
import Mathlib.Data.List.TakeDrop

/-!
# Names of segment files

The names that the store gives its files are told apart by reading them:

* **`parseName?_segment`** — the name of one half of a generation reads back as both;
* **`isTemporary_temporary`**, **`not_isTemporary_segment`** — a temporary name is known by its
  extension;
* **`segment_injective`**, **`temporary_injective`** — so no two of the names are the same.
-/

namespace LsmTree.FileName

/-! ## Extensions -/

/-- What follows the last dot is the extension, if something comes before that dot. -/
theorem splitExtension_append {stem extension : List Char} (hstem : stem ≠ [])
    (hextension : '.' ∉ extension) :
    splitExtension (stem ++ '.' :: extension) = (stem, some extension) := by
  have hspan : (stem ++ '.' :: extension).reverse.span (· ≠ '.') =
      (extension.reverse, '.' :: stem.reverse) := by
    have hkeep : ∀ c ∈ extension.reverse, decide (c ≠ '.') = true := by
      intro c hc
      rw [decide_eq_true_iff]
      rintro rfl
      exact hextension (List.mem_reverse.1 hc)
    rw [List.span_eq_takeWhile_dropWhile, List.reverse_append, List.reverse_cons, List.append_assoc,
      List.takeWhile_append_of_pos hkeep, List.dropWhile_append_of_pos hkeep]
    simp
  unfold splitExtension
  rw [hspan]
  cases hrev : stem.reverse with
  | nil => exact absurd (List.reverse_eq_nil_iff.1 hrev) hstem
  | cons c rest => simp [← hrev]

theorem dot_not_mem_extension (half : Half) : '.' ∉ half.extension := by
  cases half <;> decide

theorem splitExtension_segment (half : Half) (generation : UInt64) :
    splitExtension (segment half generation).toList =
      (lead ++ Text.Decimal.padded 6 generation.toNat, some half.extension) := by
  rw [segment, String.toList_ofList]
  exact splitExtension_append (by simp [lead]) (dot_not_mem_extension half)

theorem splitExtension_temporary {name : String} (h : name.toList ≠ []) :
    splitExtension (temporary name).toList = (name.toList, some temporaryExtension) := by
  rw [temporary, String.toList_ofList]
  exact splitExtension_append h (by decide)

/-! ## Reading names -/

theorem head?_digits_ne_plus (n : Nat) : (Text.Decimal.digits n).head? ≠ some '+' := by
  fun_induction Text.Decimal.digits n with
  | case1 n h =>
    have : ∀ d : Fin 10, Text.Decimal.digit d ≠ '+' := by decide
    simpa using this ⟨n, h⟩
  | case2 n h ih =>
    rw [List.head?_append]
    cases hhead : (Text.Decimal.digits (n / 10)).head? with
    | none => exact absurd (List.head?_eq_none_iff.1 hhead) (Text.Decimal.digits_ne_nil _)
    | some c => simpa [hhead] using ih

theorem head?_padded_ne_plus (width n : Nat) : (Text.Decimal.padded width n).head? ≠ some '+' := by
  rw [Text.Decimal.padded]
  cases width - (Text.Decimal.digits n).length with
  | zero => simpa using head?_digits_ne_plus n
  | succ k => simp [List.replicate_succ]

theorem generation?_of_head? {numeral : List Char} (h : numeral.head? ≠ some '+') {generation : UInt64}
    (hread : Text.Decimal.read? numeral = some generation.toNat) :
    generation? numeral = some generation := by
  have hdigits : ∀ c rest, numeral = c :: rest → c ≠ '+' := by
    rintro c rest rfl rfl
    exact h rfl
  unfold generation?
  cases numeral with
  | nil => cases hread
  | cons c rest =>
    have hc := hdigits c rest rfl
    simp [hc, hread, generation.toNat_lt_size]

theorem generation?_padded (width : Nat) (generation : UInt64) :
    generation? (Text.Decimal.padded width generation.toNat) = some generation :=
  generation?_of_head? (head?_padded_ne_plus width generation.toNat) (Text.Decimal.read?_padded _ _)

theorem half?_extension (half : Half) : half? half.extension = some half := by
  cases half <;> rfl

/-- **The name of one half of a generation reads back as both.** -/
theorem parseName?_segment (half : Half) (generation : UInt64) :
    parseName? (segment half generation) = some (generation, half) := by
  unfold parseName?
  rw [splitExtension_segment]
  simp [half?_extension, generation?_padded]

theorem segment_injective {half half' : Half} {generation generation' : UInt64}
    (h : segment half generation = segment half' generation') :
    half = half' ∧ generation = generation' := by
  have hparsed := congrArg parseName? h
  rw [parseName?_segment, parseName?_segment] at hparsed
  cases hparsed
  exact ⟨rfl, rfl⟩

theorem parseName?_manifest : parseName? manifest = none := by decide

theorem segment_ne_manifest (half : Half) (generation : UInt64) :
    segment half generation ≠ manifest := by
  intro h
  have hparsed := parseName?_segment half generation
  rw [h, parseName?_manifest] at hparsed
  cases hparsed

/-! ## Temporary names -/

theorem toList_segment_ne_nil (half : Half) (generation : UInt64) :
    (segment half generation).toList ≠ [] := by
  simp [segment, lead]

/-- **A temporary name is known by its extension.** -/
theorem isTemporary_temporary {name : String} (h : name.toList ≠ []) :
    isTemporary (temporary name) = true := by
  simp [isTemporary, splitExtension_temporary h]

theorem not_isTemporary_segment (half : Half) (generation : UInt64) :
    isTemporary (segment half generation) = false := by
  rw [isTemporary, splitExtension_segment]
  dsimp only
  cases half <;> simp [Half.extension, temporaryExtension]

theorem not_isTemporary_manifest : isTemporary manifest = false := by decide

theorem isTemporary_temporary_segment (half : Half) (generation : UInt64) :
    isTemporary (temporary (segment half generation)) = true :=
  isTemporary_temporary (toList_segment_ne_nil half generation)

theorem isTemporary_temporary_manifest : isTemporary (temporary manifest) = true :=
  isTemporary_temporary (by decide)

theorem temporary_injective {name other : String} (h : temporary name = temporary other) :
    name = other := by
  have hlist := congrArg String.toList h
  simp only [temporary, String.toList_ofList] at hlist
  exact String.toList_injective (List.append_cancel_right hlist)

theorem ne_of_isTemporary {name other : String} (h : isTemporary name = true)
    (h' : isTemporary other = false) : name ≠ other := by
  rintro rfl
  rw [h] at h'
  cases h'

/-! ## Telling names apart -/

@[simp] theorem segment_inj {half half' : Half} {generation generation' : UInt64} :
    segment half generation = segment half' generation' ↔ half = half' ∧ generation = generation' := by
  constructor
  · exact segment_injective
  · rintro ⟨rfl, rfl⟩
    rfl

@[simp] theorem temporary_inj {name other : String} :
    temporary name = temporary other ↔ name = other := by
  constructor
  · exact temporary_injective
  · rintro rfl
    rfl

@[simp] theorem segment_ne_temporary_segment (half half' : Half) (generation generation' : UInt64) :
    segment half generation ≠ temporary (segment half' generation') :=
  (ne_of_isTemporary (isTemporary_temporary_segment _ _) (not_isTemporary_segment _ _)).symm

@[simp] theorem temporary_segment_ne_segment (half half' : Half) (generation generation' : UInt64) :
    temporary (segment half generation) ≠ segment half' generation' :=
  ne_of_isTemporary (isTemporary_temporary_segment _ _) (not_isTemporary_segment _ _)

@[simp] theorem manifest_ne_segment (half : Half) (generation : UInt64) :
    manifest ≠ segment half generation :=
  (segment_ne_manifest half generation).symm

@[simp] theorem manifest_ne_temporary_segment (half : Half) (generation : UInt64) :
    manifest ≠ temporary (segment half generation) :=
  (ne_of_isTemporary (isTemporary_temporary_segment _ _) not_isTemporary_manifest).symm

@[simp] theorem temporary_manifest_ne_segment (half : Half) (generation : UInt64) :
    temporary manifest ≠ segment half generation :=
  ne_of_isTemporary isTemporary_temporary_manifest (not_isTemporary_segment _ _)

@[simp] theorem temporary_manifest_ne_manifest : temporary manifest ≠ manifest :=
  ne_of_isTemporary isTemporary_temporary_manifest not_isTemporary_manifest

/-! ## The names of a generation -/

/-- The four names that the files of a generation may have. -/
def ofGeneration (generation : UInt64) : List String :=
  [segment .data generation, segment .index generation,
    temporary (segment .data generation), temporary (segment .index generation)]

theorem mem_ofGeneration {name : String} {generation : UInt64} :
    name ∈ ofGeneration generation ↔
      ∃ half, name = segment half generation ∨ name = temporary (segment half generation) := by
  constructor
  · intro h
    simp only [ofGeneration, List.mem_cons, List.not_mem_nil, or_false] at h
    rcases h with h | h | h | h
    · exact ⟨.data, .inl h⟩
    · exact ⟨.index, .inl h⟩
    · exact ⟨.data, .inr h⟩
    · exact ⟨.index, .inr h⟩
  · rintro ⟨half, h⟩
    cases half <;> rcases h with rfl | rfl <;> simp [ofGeneration]

/-- The names of the two files of a generation. -/
def halves (generation : UInt64) : List String := [segment .data generation, segment .index generation]

theorem mem_halves {name : String} {generation : UInt64} :
    name ∈ halves generation ↔ ∃ half, name = segment half generation := by
  constructor
  · intro h
    simp only [halves, List.mem_cons, List.not_mem_nil, or_false] at h
    rcases h with h | h
    · exact ⟨.data, h⟩
    · exact ⟨.index, h⟩
  · rintro ⟨half, rfl⟩
    cases half <;> simp [halves]

theorem manifest_not_mem_halves (generations : List UInt64) : manifest ∉ generations.flatMap halves := by
  rw [List.mem_flatMap]
  rintro ⟨generation, -, hname⟩
  obtain ⟨half, hname⟩ := mem_halves.1 hname
  exact manifest_ne_segment _ _ hname

theorem segment_mem_ofGeneration {half : Half} {generation other : UInt64} :
    segment half generation ∈ ofGeneration other ↔ generation = other := by
  cases half <;> simp [ofGeneration]

theorem manifest_not_mem_ofGeneration (generation : UInt64) : manifest ∉ ofGeneration generation := by
  simp [ofGeneration]

theorem temporary_manifest_not_mem_ofGeneration (generation : UInt64) :
    temporary manifest ∉ ofGeneration generation := by
  simp [ofGeneration]

end LsmTree.FileName
