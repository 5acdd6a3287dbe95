import LsmTree.Config
import LsmTree.Manifest.File
import LsmTree.Segment
import LsmTree.Segment.Builder
import LsmTree.Volume

/-!
# The storage manager

The manager owns the files of a data directory: it finds out at the start which segments are committed,
hands out generations, builds segments and commits lists of them.

* **`Manager.recover`** brings a directory into order: temporary files are removed, the segments that
  the manifest lists are opened, the others are removed. Without a manifest every segment found by name
  is taken as committed;
* **`Manager.build`** writes a segment, **`Manager.commit`** makes a list of segments the live one.

The counter starts at what the manifest tells and past every generation in the names of the files found,
which leaves out files whose path is too long. It goes up with each generation that is handed out. After
the last one it wraps around to zero, and generations are handed out anew.
-/

namespace LsmTree

/-- The write side of a data directory. -/
structure Manager where
  /-- Whether files and directory are synced before they are relied on. -/
  sync : Bool
  /-- The generation that is handed out next. -/
  next : UInt64
  deriving DecidableEq, Repr

namespace Manager

/-! ## Discovery -/

/-- A segment file found by name. -/
abbrev Found := List (UInt64 × Half)

/-- Puts a generation into its place in an ascending list, unless it is there. -/
def insertGeneration (generation : UInt64) : List UInt64 → List UInt64
  | [] => [generation]
  | head :: rest =>
    if generation < head then generation :: head :: rest
    else if generation = head then head :: rest
    else head :: insertGeneration generation rest

/-- The generations found, each once, in ascending order. -/
def generations (found : Found) : List UInt64 :=
  found.foldr (fun file sorted => insertGeneration file.1 sorted) []

/-- The names that are those of leftovers of writes cut short. -/
def leftovers (names : List String) : List String :=
  names.filter FileName.isTemporary

/-- The segment files among the files of a directory, by name. -/
def found (names : List String) : Found :=
  (names.filter fun name => ¬ FileName.isTemporary name).filterMap FileName.parseName?

/-- Takes the given files away. -/
def unlinkAll : List String → StateM Disk Unit
  | [] => pure ()
  | name :: rest => do
    Disk.attempt (.unlink name)
    unlinkAll rest

/-- Removes temporary files and collects the segment files by name. -/
def scan : DiskM Found := do
  let names ← Disk.fileNames
  unlinkAll (leftovers names)
  return found names

/-- Opens a segment that counts as committed: its files must be there. -/
def loadCommitted (generation : UInt64) (recorded : Option SegmentMeta) (verified : Bool) :
    DiskM Segment :=
  tryCatch (Segment.load generation recorded verified) fun
    | .io .noEntry => throw (.init (.missingFiles generation))
    | error => throw error

/-- Opens the segments that a manifest lists, oldest first. -/
def loadListed (verified : Bool) : List SegmentMeta → DiskM (List Segment)
  | [] => return []
  | segment :: rest => do
    let head ← loadCommitted segment.generation (some segment) verified
    let tail ← loadListed verified rest
    return head :: tail

/-- The half of a generation that was not found, the data if both were not. -/
def missingHalf? (found : Found) (generation : UInt64) : Option Half :=
  [Half.data, Half.index].find? fun half => (generation, half) ∉ found

/-- Opens every segment found, oldest first; each must have both files. -/
def loadFound (verified : Bool) (found : Found) : List UInt64 → DiskM (List Segment)
  | [] => return []
  | generation :: rest =>
    match missingHalf? found generation with
    | some half => throw (.corrupt generation (.missingHalf half))
    | none => do
      let head ← loadCommitted generation none verified
      let tail ← loadFound verified found rest
      return head :: tail

/-- Takes the files of the given generations away. -/
def removeAll : List UInt64 → StateM Disk Unit
  | [] => pure ()
  | generation :: rest => do
    Segment.remove generation
    removeAll rest

/-- The generations found that a manifest does not list. -/
def uncommitted (manifest : Manifest) (found : Found) : List UInt64 :=
  (generations found).filter fun generation =>
    ¬ manifest.segments.any fun segment => segment.generation = generation

/-- The committed segments, oldest first, and the next generation as far as the manifest tells it. -/
def committed (verified : Bool) (found : Found) : DiskM (List Segment × UInt64) := do
  match ← Manifest.load with
  | some manifest =>
    let segments ← loadListed verified manifest.segments
    removeAll (uncommitted manifest found)
    return (segments, manifest.next)
  | none =>
    let segments ← loadFound verified found (generations found)
    return (segments, 0)

/-! ## Writing -/

/-- Makes the given segments, newest first, the committed ones. -/
def commit (manager : Manager) (segments : List Segment) : DiskM Unit :=
  (Manifest.current manager.next (segments.reverse.map Segment.info)).store

/-- Hands out a generation. -/
def allocate (manager : Manager) : UInt64 × Manager :=
  (manager.next, { manager with next := manager.next + 1 })

/-- Writes ascending entries as the segment of a generation and opens it; without entries there is no
segment. Nothing stays behind on failure, unless all that failed is syncing the directory: then both files
are in place already. -/
def build (sync : Bool) (generation : UInt64) (entries : List Entry) :
    DiskM (Option Segment) := do
  let builder ← Builder.start generation sync
  let (builder, refusal) ← builder.addAll entries
  match refusal with
  | some error =>
    builder.discard
    throw error
  | none =>
    match ← builder.finish with
    | none => return none
    | some info =>
      some <$> Disk.orElse (Segment.load generation (some info) false) (Segment.remove generation)

/-! ## Opening -/

/-- Brings a directory into order and returns its manager with the committed segments, newest first.
The manifest is written anew, so that it exists and tells the next generation. -/
def recover (config : Config) : DiskM (Manager × List Segment) := do
  let found ← scan
  let (segments, next) ← committed config.verifyChecksums found
  -- Names count as handed out even where their files have just been taken away.
  let highest := (generations found).getLast?.getD 0
  let manager : Manager := ⟨config.syncWrites, max (max next (highest + 1)) 1⟩
  manager.commit segments.reverse
  return (manager, segments.reverse)

/-- Checks that the data directory is there, or makes it. -/
def prepare (config : Config) (volume : Volume) : Except Error Unit × Volume :=
  match volume.node config.dataDir with
  | .ok (.folder _) => (.ok (), volume)
  | .ok (.file _) => (.error (.init (.notDirectory config.dataDir)), volume)
  | .error .noEntry =>
    if config.createIfMissing then
      let (made, volume) := volume.makeAll config.dataDir
      (made.mapError .io, volume)
    else (.error (.init (.missingDirectory config.dataDir)), volume)
  | .error cause => (.error (.init (.unusableDirectory config.dataDir cause)), volume)

/-- Opens the data directory of a configuration. -/
def load (config : Config) (volume : Volume) : Except Error (Manager × List Segment) × Volume :=
  match prepare config volume with
  | (.error error, volume) => (.error error, volume)
  | (.ok _, volume) => volume.onDisk config.dataDir (recover config).run

end Manager

end LsmTree
