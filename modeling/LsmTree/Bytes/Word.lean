import LsmTree.Bytes

/-!
# Little-endian words

Every number in a file is written in a fixed count of octets, least significant first.

* **`ofWord_word`** — reading back what was written gives the number, modulo the capacity of the word;
* **`word_ofWord`** — writing what was read gives the octets back, so each word has one spelling.
-/

namespace LsmTree

namespace Bytes

/-- The `width` lowest octets of `n`, least significant first. -/
def word : (width : Nat) → (n : Nat) → Bytes
  | 0, _ => []
  | width + 1, n => UInt8.ofNat n :: word width (n / 256)

/-- The number whose octets, least significant first, are given. -/
def ofWord : Bytes → Nat
  | [] => 0
  | b :: rest => b.toNat + 256 * ofWord rest

/-- The count of numbers that so many octets can write. -/
def capacity : (width : Nat) → Nat
  | 0 => 1
  | width + 1 => 256 * capacity width

/-- The first `width` octets and what follows them, if there are that many. -/
def split? (width : Nat) (bytes : Bytes) : Option (Bytes × Bytes) :=
  if width ≤ bytes.length then some (bytes.take width, bytes.drop width) else none

@[simp] theorem length_word (width n : Nat) : (word width n).length = width := by
  induction width generalizing n with
  | zero => rfl
  | succ width ih => simp [word, ih]

theorem ofWord_word (width n : Nat) : ofWord (word width n) = n % capacity width := by
  induction width generalizing n with
  | zero => simp [word, ofWord, capacity, Nat.mod_one]
  | succ width ih =>
    rw [word, ofWord, ih, capacity, Nat.mod_mul]
    simp

theorem ofWord_lt (bytes : Bytes) : ofWord bytes < capacity bytes.length := by
  induction bytes with
  | nil => simp [ofWord, capacity]
  | cons b rest ih =>
    have hb := b.toNat_lt
    simp only [ofWord, List.length_cons, capacity]
    omega

theorem word_ofWord (bytes : Bytes) : word bytes.length (ofWord bytes) = bytes := by
  induction bytes with
  | nil => rfl
  | cons b rest ih =>
    have hb := b.toNat_lt
    have hdiv : (b.toNat + 256 * ofWord rest) / 256 = ofWord rest := by omega
    simp only [List.length_cons, word, ofWord, hdiv, ih]
    congr 1
    apply UInt8.toNat_inj.1
    simp

theorem split?_eq_some {width : Nat} {bytes front rest : Bytes} :
    split? width bytes = some (front, rest) ↔ bytes = front ++ rest ∧ front.length = width := by
  unfold split?
  constructor
  · split
    · rintro h
      cases h
      exact ⟨(List.take_append_drop _ _).symm, by simp; omega⟩
    · simp
  · rintro ⟨rfl, rfl⟩
    simp

end Bytes

end LsmTree
