import LsmTree.Bytes

/-!
# Contents of files

A file is known by a number, and names lead to numbers. So a file that is open for writing keeps being
written whatever happens to its name meanwhile, and two names never share a file by accident.

* **`Contents.get`** is the view: the octets of a file;
* **`Contents.add`** makes a file, described by **`get_add_self`** and **`get_add_of_lt`**;
* **`Contents.write`** writes octets at an offset, described by **`get_write_self`** and
  **`get_write_of_ne`**; at the end of a file it appends, as **`overwritten_length`** says.
-/

namespace LsmTree

/-- The octets of each file, by its number. A file stays listed when no name leads to it any more, since
it may be open still. -/
structure Contents where
  files : List Bytes

namespace Contents

/-- No files. -/
def empty : Contents := ⟨[]⟩

/-- How many files were ever made. -/
def size (contents : Contents) : Nat := contents.files.length

/-- The octets of a file. -/
def get (contents : Contents) (file : Nat) : Bytes := contents.files.getD file []

/-- Makes a file and tells its number. -/
def add (contents : Contents) (bytes : Bytes) : Nat × Contents :=
  (contents.size, ⟨contents.files ++ [bytes]⟩)

/-- Gives a file other octets. -/
def set (contents : Contents) (file : Nat) (bytes : Bytes) : Contents :=
  ⟨contents.files.set file bytes⟩

/-- Octets after others were written over them from an offset on; a gap is filled with zeros. -/
def overwritten (old : Bytes) (offset : Nat) (bytes : Bytes) : Bytes :=
  old.take offset ++ (List.replicate (offset - old.length) 0 ++
    (bytes ++ old.drop (offset + bytes.length)))

/-- Octets cut off, or filled up with zeros, to a length. -/
def resized (old : Bytes) (length : Nat) : Bytes :=
  old.take length ++ List.replicate (length - old.length) 0

/-- Writes octets into a file from an offset on. -/
def write (contents : Contents) (file offset : Nat) (bytes : Bytes) : Contents :=
  contents.set file (overwritten (contents.get file) offset bytes)

theorem get_set_self {contents : Contents} {file : Nat} (h : file < contents.size) (bytes : Bytes) :
    (contents.set file bytes).get file = bytes := by
  have : file < contents.files.length := h
  simp [get, set, this]

theorem get_set_of_ne {file other : Nat} (h : other ≠ file) (contents : Contents) (bytes : Bytes) :
    (contents.set file bytes).get other = contents.get other := by
  simp [get, set, List.getElem?_set_ne (Ne.symm h)]

theorem size_add (contents : Contents) (bytes : Bytes) :
    (contents.add bytes).2.size = contents.size + 1 := by
  simp [add, size]

theorem get_add_self (contents : Contents) (bytes : Bytes) :
    (contents.add bytes).2.get (contents.add bytes).1 = bytes := by
  simp [get, add, size]

theorem get_add_of_lt {contents : Contents} {file : Nat} (h : file < contents.size) (bytes : Bytes) :
    (contents.add bytes).2.get file = contents.get file := by
  have : file < contents.files.length := h
  simp [get, add, List.getElem?_append_left this]

theorem get_write_self {contents : Contents} {file : Nat} (h : file < contents.size) (offset : Nat)
    (bytes : Bytes) :
    (contents.write file offset bytes).get file =
      overwritten (contents.get file) offset bytes :=
  get_set_self h _

theorem get_write_of_ne {file other : Nat} (h : other ≠ file) (contents : Contents) (offset : Nat)
    (bytes : Bytes) :
    (contents.write file offset bytes).get other = contents.get other :=
  get_set_of_ne h contents _

/-- Octets written at the end come after those that are there. -/
theorem overwritten_length (old bytes : Bytes) :
    overwritten old old.length bytes = old ++ bytes := by
  simp [overwritten]

end Contents

end LsmTree
