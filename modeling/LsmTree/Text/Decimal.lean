/-!
# Decimal numerals

Printing a natural number in decimal, with leading zeros up to a least width, and reading one back.

* **`read?_digits`** — a printed number reads back as itself;
* **`read?_padded`** — so it does with any number of leading zeros.
-/

namespace LsmTree.Text.Decimal

/-- The character of a digit below ten. -/
def digit (d : Nat) : Char := Char.ofNat (48 + d)

/-- The decimal digits of a number, most significant first; zero has one digit. -/
def digits (n : Nat) : List Char :=
  if n < 10 then [digit n] else digits (n / 10) ++ [digit (n % 10)]

/-- The decimal digits, after as many zeros as it takes to fill `width` places. -/
def padded (width n : Nat) : List Char :=
  List.replicate (width - (digits n).length) '0' ++ digits n

/-- The number that a digit stands for. -/
def digitValue? (c : Char) : Option Nat :=
  if '0' ≤ c ∧ c ≤ '9' then some (c.toNat - 48) else none

/-- The number read so far, extended by the digits that follow. -/
def readOn : Nat → List Char → Option Nat
  | n, [] => some n
  | n, c :: rest => (digitValue? c).bind fun d => readOn (10 * n + d) rest

/-- The number that a nonempty string of digits stands for; leading zeros are allowed. -/
def read? : List Char → Option Nat
  | [] => none
  | cs => readOn 0 cs

/-- The decimal text of a number. -/
def text (n : Nat) : String := String.ofList (digits n)

theorem digitValue?_digit {d : Nat} (h : d < 10) : digitValue? (digit d) = some d := by
  have : ∀ d : Fin 10, digitValue? (digit d) = some d.val := by decide
  exact this ⟨d, h⟩

theorem readOn_append (n : Nat) (a b : List Char) :
    readOn n (a ++ b) = (readOn n a).bind fun m => readOn m b := by
  induction a generalizing n with
  | nil => rfl
  | cons c rest ih => cases h : digitValue? c <;> simp [readOn, h, ih]

theorem readOn_digits (n : Nat) : readOn 0 (digits n) = some n := by
  fun_induction digits n with
  | case1 n h => simp [readOn, digitValue?_digit h]
  | case2 n h ih =>
    have hd : n % 10 < 10 := Nat.mod_lt _ (by decide)
    simp only [readOn_append, ih, Option.bind_some, readOn, digitValue?_digit hd]
    congr 1
    omega

theorem readOn_zeros (k : Nat) (cs : List Char) :
    readOn 0 (List.replicate k '0' ++ cs) = readOn 0 cs := by
  induction k with
  | zero => rfl
  | succ k ih =>
    have h : digitValue? '0' = some 0 := by decide
    simp [List.replicate_succ, readOn, h, ih]

theorem digits_ne_nil (n : Nat) : digits n ≠ [] := by
  fun_induction digits n <;> simp

theorem read?_digits (n : Nat) : read? (digits n) = some n := by
  rw [read?, readOn_digits]
  exact digits_ne_nil n

theorem read?_padded (width n : Nat) : read? (padded width n) = some n := by
  rw [padded, read?, readOn_zeros, readOn_digits]
  simp [digits_ne_nil]

end LsmTree.Text.Decimal
