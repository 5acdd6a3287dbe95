import LsmTree.Bytes
import LsmTree.Text.Hex

/-!
# Quoted byte strings

How a key is shown inside a message: between double quotes after the letter b. Printable octets stand
for themselves, five octets and the quote have a short escape, all others are written in hexadecimal.
-/

namespace LsmTree.Text.Quoted

/-- The form of one octet between the quotes. -/
def escape (octet : UInt8) : List Char :=
  if octet = 10 then ['\\', 'n']
  else if octet = 13 then ['\\', 'r']
  else if octet = 9 then ['\\', 't']
  else if octet = 92 then ['\\', '\\']
  else if octet = 34 then ['\\', '"']
  else if octet = 0 then ['\\', '0']
  else if 0x20 ≤ octet ∧ octet < 0x7f then [Char.ofNat octet.toNat]
  else ['\\', 'x'] ++ Hex.digits 2 octet.toNat

/-- The byte string between its quotes. -/
def text (bytes : Bytes) : String :=
  String.ofList (['b', '"'] ++ bytes.flatMap escape ++ ['"'])

end LsmTree.Text.Quoted
