import LsmTree.Session
import LsmTree.Volume.Files

/-!
# Answers

What a step of a session tells.
-/

namespace LsmTree

/-- What is told of an opened segment. -/
structure SegmentReport where
  info : SegmentMeta
  count : Nat
  dataLen : Nat
  indexLen : Nat
  replaced : Bool
  dataPath : String
  indexPath : String
  deriving DecidableEq, Repr

/-- The one-line summary of an opened segment. -/
def SegmentReport.summary (report : SegmentReport) : String :=
  s!"Segment \x7b generation: {report.info.generation.toNat}, entry_count: {report.count}, " ++
    s!"data_len: {report.dataLen}, obsolete: {report.replaced} \x7d"

/-- What is told of an engine. -/
structure EngineReport where
  config : Config
  generations : List UInt64
  tableCount : Nat
  tableSize : Nat
  next : UInt64
  closed : Bool
  deriving DecidableEq, Repr

/-- The answer to a step. -/
inductive Answer
  | done
  | number (n : Nat)
  | text (text : String)
  | bytes (bytes : Bytes)
  /-- The value of a key, if it has one. -/
  | value (value : Option Bytes)
  | entries (entries : List Entry)
  /-- An entry, or none, for each thing asked. -/
  | lookups (entries : List (Option Entry))
  | lookup (entry : Option Entry)
  | listing (items : List (String × Item))
  | table (count size : Nat) (isEmpty : Bool)
  | info (info : Option SegmentMeta)
  | segment (report : SegmentReport)
  | manifest (manifest : Option Manifest)
  /-- A segment cursor's generation and the count of its entries still to come. -/
  | cursor (generation : UInt64) (remaining : Nat)
  | manager (next : UInt64) (segments : List SegmentMeta)
  | engine (generations : List UInt64) (next : UInt64)
  | report (report : EngineReport)
  /-- The exit code and the output of a run of the program. -/
  | outcome (code : Nat) (output : String)

end LsmTree
