import LsmTree.Bytes

/-!
# Key ranges

A half-open interval of keys: the lower bound belongs to it, the upper one does not, and either may be
missing.

* **`KeyRange.not_contains_of_isEmpty`** — a range whose bounds are equal or inverted holds no key.
-/

namespace LsmTree

/-- The keys from `start` on, up to but not including `stop`. -/
structure KeyRange where
  start : Option Bytes
  stop : Option Bytes
  deriving DecidableEq, Repr

namespace KeyRange

/-- The range of all keys. -/
def all : KeyRange := ⟨none, none⟩

/-- Whether the key is at or past the lower bound. -/
def startsBefore (range : KeyRange) (key : Bytes) : Bool :=
  match range.start with
  | none => true
  | some start => ¬ key < start

/-- Whether the key is strictly below the upper bound. -/
def endsAfter (range : KeyRange) (key : Bytes) : Bool :=
  match range.stop with
  | none => true
  | some stop => key < stop

/-- Whether the key lies in the range. -/
def contains (range : KeyRange) (key : Bytes) : Bool :=
  range.startsBefore key && range.endsAfter key

/-- Whether both bounds are given and the lower one is at or above the upper one. -/
def isEmpty (range : KeyRange) : Bool :=
  match range.start, range.stop with
  | some start, some stop => ¬ start < stop
  | _, _ => false

theorem not_contains_of_isEmpty {range : KeyRange} (h : range.isEmpty = true) (key : Bytes) :
    range.contains key = false := by
  rcases range with ⟨_ | start, _ | stop⟩ <;> simp [isEmpty] at h
  simp only [contains, startsBefore, endsAfter]
  by_cases hkey : key < start
  · simp [hkey]
  · have : ¬ key < stop := fun hstop =>
      (List.not_lt.2 h) (List.lt_of_le_of_lt (List.not_lt.1 hkey) hstop)
    simp [this]

end KeyRange

end LsmTree
