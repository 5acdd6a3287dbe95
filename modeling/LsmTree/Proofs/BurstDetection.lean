import LsmTree.Bytes.Checksum
import LsmTree.Bytes.Word
import Mathlib.Data.Nat.Bitwise
import Mathlib.Order.Monotone.Basic

/-!
# Damage that the checksum cannot miss

A shift of the register is linear in exclusive or and loses nothing, so two registers that differ stay
different whatever both absorb. Up to four octets fit the register beside one another, as the word that
they spell:

* **`Checksum.shift_xor`**, **`Checksum.shift_injective`** — what one shift does to a difference;
* **`Checksum.foldl_absorb_word`** — a few octets are absorbed as one word, before all of their shifts;
* **`Bytes.Burst.crc32_ne`** — so octets changed within a window of four always change the CRC-32.
-/

namespace LsmTree

namespace Checksum

/-! ## One shift -/

theorem and_one_eq_zero (register : UInt32) : register &&& 1 = 0 ↔ register.toNat % 2 = 0 := by
  rw [← UInt32.toNat_inj, UInt32.toNat_and]
  simp [Nat.and_one_is_mod]

theorem toNat_shiftRight_one (register : UInt32) : (register >>> 1).toNat = register.toNat / 2 := by
  simp [Nat.shiftRight_one]

theorem shift_xor (a b : UInt32) : shift (a ^^^ b) = shift a ^^^ shift b := by
  have hlow : (a ^^^ b).toNat % 2 = 0 ↔ (a.toNat % 2 = 0 ↔ b.toNat % 2 = 0) := by
    rw [UInt32.toNat_xor, Nat.xor_mod_two_eq]
    omega
  have hhigh : (a ^^^ b) >>> 1 = (a >>> 1) ^^^ (b >>> 1) := UInt32.shiftRight_xor
  simp only [shift, and_one_eq_zero, hlow, hhigh]
  by_cases ha : a.toNat % 2 = 0 <;> by_cases hb : b.toNat % 2 = 0
  · rw [if_pos ha, if_pos hb, if_pos (by tauto)]
  · rw [if_pos ha, if_neg hb, if_neg (by tauto), UInt32.xor_assoc]
  · rw [if_neg ha, if_pos hb, if_neg (by tauto)]
    ac_rfl
  · -- Both lose a bit, and the two polynomials cancel.
    rw [if_neg ha, if_neg hb, if_pos (by tauto)]
    calc (a >>> 1) ^^^ (b >>> 1)
        = ((a >>> 1) ^^^ (b >>> 1)) ^^^ (0xEDB88320 ^^^ 0xEDB88320) := by simp
      _ = _ := by ac_rfl

/-- Only the empty register is shifted to the empty register: what is shifted right has a clear top
bit, and the polynomial has not. -/
theorem eq_zero_of_shift {register : UInt32} (h : shift register = 0) : register = 0 := by
  have hbound := register.toNat_lt
  have hhalf := toNat_shiftRight_one register
  unfold shift at h
  split at h
  · next hlow =>
    have heven := (and_one_eq_zero register).1 hlow
    rw [h] at hhalf
    have hzero : register.toNat = 0 := by
      simp at hhalf
      omega
    exact UInt32.toNat_inj.1 hzero
  · have hpoly : register >>> 1 = 0xEDB88320 := UInt32.xor_eq_zero_iff.1 h
    rw [hpoly] at hhalf
    simp at hhalf
    omega

theorem shift_injective : Function.Injective shift := by
  intro a b h
  have hzero : shift (a ^^^ b) = 0 := by rw [shift_xor, h, UInt32.xor_self]
  exact UInt32.xor_eq_zero_iff.1 (eq_zero_of_shift hzero)

/-- A number whose lowest bit is clear only moves down. -/
theorem shift_double {n : Nat} (h : 2 * n < UInt32.size) :
    shift (.ofNat (2 * n)) = .ofNat n := by
  have hsize : (UInt32.ofNat (2 * n)).toNat = 2 * n := UInt32.toNat_ofNat_of_lt' h
  rw [shift, if_pos]
  · apply UInt32.toNat_inj.1
    rw [toNat_shiftRight_one, hsize, UInt32.toNat_ofNat_of_lt' (by omega)]
    omega
  · rw [and_one_eq_zero, hsize]
    omega

/-! ## Several shifts -/

theorem repeat_shift_xor (count : Nat) (a b : UInt32) :
    Nat.repeat shift count (a ^^^ b) = Nat.repeat shift count a ^^^ Nat.repeat shift count b := by
  induction count with
  | zero => rfl
  | succ count ih => rw [Nat.repeat, ih, shift_xor, Nat.repeat, Nat.repeat]

theorem repeat_shift_injective (count : Nat) : Function.Injective (Nat.repeat shift count) := by
  intro a b h
  induction count with
  | zero => exact h
  | succ count ih => exact ih (shift_injective h)

theorem repeat_shift_add (more count : Nat) (register : UInt32) :
    Nat.repeat shift (more + count) register =
      Nat.repeat shift more (Nat.repeat shift count register) := by
  induction more with
  | zero => rw [Nat.zero_add, Nat.repeat]
  | succ more ih => rw [Nat.succ_add, Nat.repeat, ih, Nat.repeat]

/-- A number whose low bits are clear is moved down past them. -/
theorem repeat_shift_scaled (count : Nat) {n : Nat} (h : 2 ^ count * n < UInt32.size) :
    Nat.repeat shift count (.ofNat (2 ^ count * n)) = .ofNat n := by
  induction count generalizing n with
  | zero => simp [Nat.repeat]
  | succ count ih =>
    have hscale : 2 ^ (count + 1) * n = 2 ^ count * (2 * n) := by
      rw [Nat.pow_succ, Nat.mul_assoc]
    have hdouble : 2 * n ≤ 2 ^ count * (2 * n) := Nat.le_mul_of_pos_left _ (Nat.two_pow_pos count)
    rw [Nat.repeat, hscale, ih (hscale ▸ h), shift_double (by omega)]

/-! ## Octets absorbed as words -/

theorem absorb_injective (octet : UInt8) : Function.Injective (absorb · octet) := by
  intro a b h
  have hmixed : a ^^^ octet.toUInt32 = b ^^^ octet.toUInt32 := repeat_shift_injective 8 h
  exact (UInt32.xor_left_inj _).1 hmixed

/-- Registers that differ still differ after the same octets. -/
theorem foldl_absorb_injective (bytes : Bytes) :
    Function.Injective (fun register => bytes.foldl absorb register) := by
  induction bytes with
  | nil => exact fun _ _ h => h
  | cons octet rest ih => exact fun _ _ h => absorb_injective octet (ih h)

/-- Octets that fit a word are a number that fits it. -/
theorem ofWord_lt_of_length_le {bytes : Bytes} {width : Nat} (h : bytes.length ≤ width) :
    Bytes.ofWord bytes < Bytes.capacity width := by
  have hmono : Monotone Bytes.capacity := by
    apply monotone_nat_of_le_succ
    intro n
    rw [Bytes.capacity]
    omega
  exact Nat.lt_of_lt_of_le (Bytes.ofWord_lt bytes) (hmono h)

/-- The lowest octet of a word does not meet the others. -/
theorem ofNat_word (octet : UInt8) (n : Nat) :
    UInt32.ofNat (octet.toNat + 256 * n) = octet.toUInt32 ^^^ .ofNat (256 * n) := by
  have hdisjoint : octet.toNat + 256 * n = octet.toNat ^^^ (256 * n) := by
    apply Nat.eq_of_testBit_eq
    intro i
    rw [Nat.add_comm, Nat.testBit_two_pow_mul_add n octet.toNat_lt i, Nat.testBit_xor,
      Nat.testBit_two_pow_mul (i := 8)]
    split
    · next h => simp [Nat.not_le.2 h]
    · next h =>
      have hhigh : octet.toNat.testBit i = false :=
        Nat.testBit_lt_two_pow (Nat.lt_of_lt_of_le octet.toNat_lt
          (Nat.pow_le_pow_right (by omega) (by omega)))
      simp [hhigh, Nat.not_lt.1 h]
  rw [hdisjoint, UInt32.ofNat_xor, UInt32.ofNat_uInt8ToNat]

/-- **A few octets are absorbed as one word:** each is shifted as often as if the others were there
from the start. -/
theorem foldl_absorb_word (register : UInt32) {bytes : Bytes} (h : bytes.length ≤ 4) :
    bytes.foldl absorb register =
      Nat.repeat shift (8 * bytes.length) (register ^^^ .ofNat (Bytes.ofWord bytes)) := by
  induction bytes generalizing register with
  | nil => simp [Bytes.ofWord, Nat.repeat]
  | cons octet rest ih =>
    have hlength : rest.length + 1 ≤ 4 := h
    -- The rest of the word stands above the octet, from where eight shifts bring it down.
    have hrest : Nat.repeat shift 8 (.ofNat (256 * Bytes.ofWord rest)) =
        .ofNat (Bytes.ofWord rest) := by
      have hbound := ofWord_lt_of_length_le (Nat.le_of_succ_le_succ hlength)
      have hsize : UInt32.size = 2 ^ 8 * Bytes.capacity 3 := rfl
      exact repeat_shift_scaled 8 (by omega)
    calc (octet :: rest).foldl absorb register
        = Nat.repeat shift (8 * rest.length)
            (absorb register octet ^^^ .ofNat (Bytes.ofWord rest)) :=
          ih _ (by omega)
      _ = Nat.repeat shift (8 * rest.length) (Nat.repeat shift 8
            (register ^^^ octet.toUInt32 ^^^ .ofNat (256 * Bytes.ofWord rest))) := by
          rw [absorb, ← hrest, ← repeat_shift_xor]
      _ = _ := by
          rw [← repeat_shift_add, Bytes.ofWord, ofNat_word, UInt32.xor_assoc]
          rfl

/-- Two different strings of at most four octets lead to different registers. -/
theorem foldl_absorb_ne {register : UInt32} {bytes other : Bytes} (hlength : other.length = bytes.length)
    (hshort : bytes.length ≤ 4) (hne : other ≠ bytes) :
    other.foldl absorb register ≠ bytes.foldl absorb register := by
  intro h
  rw [foldl_absorb_word register (hlength ▸ hshort), foldl_absorb_word register hshort, hlength] at h
  have hword := (UInt32.xor_right_inj register).1 (repeat_shift_injective _ h)
  have hfits := ofWord_lt_of_length_le hshort
  have hfits' := ofWord_lt_of_length_le (hlength ▸ hshort)
  have hvalue : Bytes.ofWord other = Bytes.ofWord bytes := by
    rw [← UInt32.toNat_ofNat_of_lt' hfits, ← UInt32.toNat_ofNat_of_lt' hfits', hword]
  -- A word of known width has one spelling.
  apply hne
  rw [← Bytes.word_ofWord other, ← Bytes.word_ofWord bytes, hlength, hvalue]

end Checksum

namespace Bytes

/-- One byte string is another of the same length, but for some of the octets within a window. -/
structure Burst (width : Nat) (bytes damaged : Bytes) : Prop where
  length : damaged.length = bytes.length
  ne : damaged ≠ bytes
  within : ∃ start, ∀ i, i < start ∨ start + width ≤ i → damaged[i]? = bytes[i]?

/-- One octet with another value is a burst. -/
theorem Burst.set {width position : Nat} {bytes : Bytes} {octet : UInt8} (hwidth : 0 < width)
    (hposition : position < bytes.length) (hoctet : octet ≠ bytes[position]) :
    Burst width bytes (bytes.set position octet) where
  length := List.length_set
  ne := by
    intro h
    have hthere : (bytes.set position octet)[position]? = bytes[position]? := by rw [h]
    rw [List.getElem?_set_self hposition, List.getElem?_eq_getElem hposition] at hthere
    exact hoctet (Option.some.inj hthere)
  within := by
    refine ⟨position, ?_⟩
    intro i hi
    exact List.getElem?_set_ne (by omega)

/-- The octets before a burst, those in its window, and those after it. -/
theorem Burst.split {width : Nat} {bytes damaged : Bytes} (h : Burst width bytes damaged) :
    ∃ front window other back, bytes = front ++ window ++ back ∧ damaged = front ++ other ++ back ∧
      other.length = window.length ∧ window.length ≤ width ∧ other ≠ window := by
  obtain ⟨start, hwithin⟩ := h.within
  have hparts : ∀ whole : Bytes,
      whole = whole.take start ++ (whole.drop start).take width ++ whole.drop (start + width) := by
    intro whole
    rw [← List.drop_drop, List.append_assoc, List.take_append_drop, List.take_append_drop]
  have hfront : damaged.take start = bytes.take start := by
    apply List.ext_getElem?
    intro i
    simp only [List.getElem?_take]
    split
    · next hi => exact hwithin i (.inl hi)
    · rfl
  have hback : damaged.drop (start + width) = bytes.drop (start + width) := by
    apply List.ext_getElem?
    intro i
    simp only [List.getElem?_drop]
    exact hwithin _ (.inr (by omega))
  refine ⟨_, _, (damaged.drop start).take width, _, hparts bytes, ?_, ?_, ?_, ?_⟩
  · rw [← hfront, ← hback]
    exact hparts damaged
  · simp [h.length]
  · rw [List.length_take]
    omega
  · intro hwindow
    apply h.ne
    rw [hparts damaged, hparts bytes, hfront, hback, hwindow]

/-- **A burst of at most four octets** changes the checksum. -/
theorem Burst.crc32_ne {bytes damaged : Bytes} (h : Burst 4 bytes damaged) :
    damaged.crc32 ≠ bytes.crc32 := by
  obtain ⟨front, window, other, back, rfl, rfl, hlength, hshort, hne⟩ := h.split
  intro hcrc
  have hregister := (UInt32.xor_left_inj _).1 hcrc
  simp only [Checksum.update, List.foldl_append] at hregister
  exact Checksum.foldl_absorb_ne hlength hshort hne (Checksum.foldl_absorb_injective back hregister)

end Bytes

end LsmTree
