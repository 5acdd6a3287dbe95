import LsmTree.Bytes

/-!
# UTF-8, read leniently

Output that may not be UTF-8 is shown with the replacement character U+FFFD in place of each longest
piece that begins a character and is cut short, and of each octet that begins none.

* **`encode`** — the octets of a text;
* **`decode`** — the text of any octets.
-/

namespace LsmTree.Text.Utf8

/-- The octets of a text. -/
def encode (text : String) : Bytes :=
  text.toList.flatMap String.utf8EncodeChar

/-- What stands in the place of octets that are no character. -/
def replacement : Char := '\uFFFD'

/-- What an octet that begins a character of several octets asks of those after it. -/
structure Lead where
  /-- The bits of the character that the octet itself carries. -/
  bits : Nat
  /-- The least octet that may come next. -/
  low : UInt8
  /-- The greatest octet that may come next. -/
  high : UInt8
  /-- How many octets follow that one. -/
  more : Nat

/-- The octets C2 to F4 begin a character of two to four octets. After E0, ED, F0 and F4 the next octet
is restricted further, so that no character has two spellings and none is a surrogate or too large. -/
def lead? (octet : UInt8) : Option Lead :=
  if octet < 0xC2 then none
  else if octet < 0xE0 then some ⟨octet.toNat - 0xC0, 0x80, 0xBF, 0⟩
  else if octet < 0xF0 then
    some ⟨octet.toNat - 0xE0, if octet = 0xE0 then 0xA0 else 0x80,
      if octet = 0xED then 0x9F else 0xBF, 1⟩
  else if octet < 0xF5 then
    some ⟨octet.toNat - 0xF0, if octet = 0xF0 then 0x90 else 0x80,
      if octet = 0xF4 then 0x8F else 0xBF, 2⟩
  else none

/-- Takes up to `count` octets of the form 10xxxxxx and adds their bits to the character: the bits, how
many octets are still owed, and the octets left. -/
def continuation : (count bits : Nat) → Bytes → Nat × Nat × Bytes
  | 0, bits, rest => (bits, 0, rest)
  | count + 1, bits, [] => (bits, count + 1, [])
  | count + 1, bits, octet :: rest =>
    if 0x80 ≤ octet ∧ octet ≤ 0xBF then
      continuation count (64 * bits + (octet.toNat - 0x80)) rest
    else (bits, count + 1, octet :: rest)

/-- The character after a leading octet, or the replacement if it is cut short, and the octets left. -/
def character (lead : Lead) : Bytes → Char × Bytes
  | [] => (replacement, [])
  | octet :: rest =>
    if lead.low ≤ octet ∧ octet ≤ lead.high then
      match continuation lead.more (64 * lead.bits + (octet.toNat - 0x80)) rest with
      | (bits, 0, rest) => (Char.ofNat bits, rest)
      | (_, _ + 1, rest) => (replacement, rest)
    else (replacement, octet :: rest)

theorem length_continuation_le (count bits : Nat) (bytes : Bytes) :
    (continuation count bits bytes).2.2.length ≤ bytes.length := by
  fun_induction continuation count bits bytes with
  | case1 => simp
  | case2 => simp
  | case3 _ _ _ _ _ ih => simp only [List.length_cons]; omega
  | case4 => simp

theorem length_character_le (lead : Lead) (bytes : Bytes) :
    (character lead bytes).2.length ≤ bytes.length := by
  cases bytes with
  | nil => simp [character]
  | cons octet rest =>
    have hle := length_continuation_le lead.more (64 * lead.bits + (octet.toNat - 0x80)) rest
    simp only [character]
    split
    · split <;> rename_i h <;> rw [h] at hle <;> simp only [List.length_cons] at hle ⊢ <;> omega
    · simp

/-- The characters that the octets stand for. -/
def characters : Bytes → List Char
  | [] => []
  | octet :: rest =>
    if octet < 0x80 then Char.ofNat octet.toNat :: characters rest
    else
      match lead? octet with
      | none => replacement :: characters rest
      | some lead => (character lead rest).1 :: characters (character lead rest).2
termination_by bytes => bytes.length
decreasing_by
  · simp
  · simp
  · have := length_character_le lead rest
    simp only [List.length_cons]
    omega

/-- The text that the octets stand for, with replacements where they are not UTF-8. -/
def decode (bytes : Bytes) : String := String.ofList (characters bytes)

end LsmTree.Text.Utf8
