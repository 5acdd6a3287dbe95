/-!
# Hexadecimal numerals of a fixed width

Octets in escapes have two digits and checksums have eight, all in lower case.
-/

namespace LsmTree.Text.Hex

/-- The lower-case character of a digit below sixteen. -/
def digit (d : Nat) : Char :=
  if d < 10 then Char.ofNat (48 + d) else Char.ofNat (87 + d)

/-- The `width` lowest hexadecimal digits of a number, most significant first. -/
def digits : (width : Nat) → (n : Nat) → List Char
  | 0, _ => []
  | width + 1, n => digits width (n / 16) ++ [digit (n % 16)]

end LsmTree.Text.Hex
