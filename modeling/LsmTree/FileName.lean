import LsmTree.Text.Decimal

/-!
# File names

A segment of generation 42 lives in `segment_000042.data` and `segment_000042.index`. Each file is
written under a temporary name, the final one followed by `.tmp`, and renamed when it is complete. The
list of committed segments is the file `MANIFEST`.

* **`FileName.segment`** names one half of a segment;
* **`FileName.parse?`** recognises such a name, whatever its zero padding;
* **`FileName.isTemporary`** recognises a temporary name.
-/

namespace LsmTree

/-- Which half of a segment a file holds. -/
inductive Half
  | data
  | index
  deriving DecidableEq, Repr

/-- The extension of the file that holds a half. -/
def Half.extension : Half → List Char
  | .data => ['d', 'a', 't', 'a']
  | .index => ['i', 'n', 'd', 'e', 'x']

namespace FileName

/-- How the name of every segment file begins. -/
def lead : List Char := ['s', 'e', 'g', 'm', 'e', 'n', 't', '_']

/-- The extension of temporary files. -/
def temporaryExtension : List Char := ['t', 'm', 'p']

/-- The name of one half of a segment: the generation has at least six digits. -/
def segment (half : Half) (generation : UInt64) : String :=
  String.ofList (lead ++ Text.Decimal.padded 6 generation.toNat ++ '.' :: half.extension)

/-- The name under which a file is written before it is complete. -/
def temporary (name : String) : String :=
  String.ofList (name.toList ++ '.' :: temporaryExtension)

/-- The name of the list of committed segments. -/
def manifest : String := "MANIFEST"

/-- The parts of a path between slashes, without the empty ones and those that name the directory
itself. -/
def components (path : String) : List String :=
  ((path.toList.splitOn '/').filter fun part => part ≠ [] ∧ part ≠ ['.']).map String.ofList

/-- A name before its last dot, and what follows that dot. A name without a dot has no extension, and
neither has one whose only dot comes first. -/
def splitExtension (name : List Char) : List Char × Option (List Char) :=
  match name.reverse.span (· ≠ '.') with
  | (_, []) => (name, none)
  | (_, [_]) => (name, none)
  | (extension, _ :: stem) => (stem.reverse, some extension.reverse)

/-- Whether a file with this name is a leftover of a write that was cut short. -/
def isTemporary (name : String) : Bool :=
  (splitExtension name.toList).2 = some temporaryExtension

/-- The generation that a numeral stands for: a plus sign and zeros may come before the digits. -/
def generation? (numeral : List Char) : Option UInt64 :=
  let digits := match numeral with
    | '+' :: rest => rest
    | _ => numeral
  match Text.Decimal.read? digits with
  | some n => if n < UInt64.size then some (UInt64.ofNat n) else none
  | none => none

/-- The half that an extension stands for. -/
def half? (extension : List Char) : Option Half :=
  if extension = Half.data.extension then some .data
  else if extension = Half.index.extension then some .index
  else none

/-- The generation and the half that a file name stands for, if it is the name of a segment file. -/
def parseName? (name : String) : Option (UInt64 × Half) :=
  match splitExtension name.toList with
  | (stem, some extension) => do
    let half ← half? extension
    let numeral ← if lead.isPrefixOf stem then some (stem.drop lead.length) else none
    let generation ← generation? numeral
    return (generation, half)
  | (_, none) => none

/-- The last part of a path, unless that leads up to a parent directory. -/
def last? (path : String) : Option String :=
  match (components path).getLast? with
  | some name => if name = ".." then none else some name
  | none => none

/-- The generation and the half that a path stands for, by its last part. -/
def parse? (path : String) : Option (UInt64 × Half) :=
  (last? path).bind parseName?

/-- A file of a directory as a path: a slash comes between unless the directory ends with one or is
empty. -/
def join (dir name : String) : String :=
  match dir.toList.getLast? with
  | none | some '/' => dir ++ name
  | some _ => dir ++ "/" ++ name

end FileName

end LsmTree
