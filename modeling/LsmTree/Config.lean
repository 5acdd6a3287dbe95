/-!
# Configuration

How an engine opens its data directory and how carefully it writes and reads there.
-/

namespace LsmTree

/-- The settings of an engine, with their defaults. -/
structure Config where
  /-- The directory that holds the manifest and the segment files. -/
  dataDir : String := "./stratakv_data"
  /-- Create the directory on opening if it does not exist. -/
  createIfMissing : Bool := true
  /-- Force files and directory entries to the device before they are relied on. -/
  syncWrites : Bool := true
  /-- Recompute checksums and check key order whenever a segment is opened. -/
  verifyChecksums : Bool := false
  deriving DecidableEq, Repr

end LsmTree
