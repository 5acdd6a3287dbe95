/-!
# Byte strings and their order

Keys, values and file contents are lists of octets. Keys are kept in lexicographic order by unsigned
octet; where one key begins another, the shorter one comes first. That is the order `<` of lists, so
its laws are the laws of lists:

* **`Bytes.lt_trans`**, **`Bytes.lt_irrefl`**, **`Bytes.eq_of_not_lt`** — `<` is a strict linear order;
* **`Bytes.order_eq_lt`**, **`Bytes.order_eq_gt`**, **`Bytes.order_eq_eq`** — the three-way comparison
  names the side that comes first.
-/

namespace LsmTree

/-- A string of octets: a key, a value, or the contents of a file. -/
abbrev Bytes := List UInt8

namespace Bytes

/-- The three-way comparison of two byte strings in storage order. -/
def order (a b : Bytes) : Ordering :=
  if a < b then .lt else if b < a then .gt else .eq

theorem lt_trans {a b c : Bytes} (hab : a < b) (hbc : b < c) : a < c :=
  List.lt_trans hab hbc

theorem lt_irrefl (a : Bytes) : ¬ a < a :=
  List.lt_irrefl a

theorem lt_asymm {a b : Bytes} (h : a < b) : ¬ b < a :=
  List.lt_asymm h

/-- Two byte strings of which neither comes first are equal. -/
theorem eq_of_not_lt {a b : Bytes} (hab : ¬ a < b) (hba : ¬ b < a) : a = b :=
  List.le_antisymm (List.not_lt.1 hba) (List.not_lt.1 hab)

theorem order_eq_lt {a b : Bytes} : order a b = .lt ↔ a < b := by
  unfold order
  split
  · simp [*]
  · split <;> simp [*]

theorem order_eq_gt {a b : Bytes} : order a b = .gt ↔ b < a := by
  unfold order
  split
  · next h => simp [lt_asymm h]
  · split <;> simp [*]

theorem order_eq_eq {a b : Bytes} : order a b = .eq ↔ a = b := by
  unfold order
  split
  · next h => simp; rintro rfl; exact lt_irrefl _ h
  · next hab =>
    split
    · next h => simp; rintro rfl; exact lt_irrefl _ h
    · next hba => simp [eq_of_not_lt hab hba]

end Bytes

end LsmTree
