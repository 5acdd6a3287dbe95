import LsmTree.Manifest
import LsmTree.Volume.Disk

/-!
# The manifest file

The manifest is replaced as a whole: the new one is written under a temporary name and renamed over the
old one. The rename is the commit; before it, the old manifest is untouched.
-/

namespace LsmTree.Manifest

/-- The manifest of a directory, if one was ever written. -/
def load : DiskM (Option Manifest) := do
  let bytes ← tryCatch (some <$> Disk.read FileName.manifest) fun
    | .io .noEntry => pure none
    | error => throw error
  match bytes with
  | none => return none
  | some bytes => some <$> ExceptT.mk (pure (decode bytes))

/-- Replaces the manifest of a directory. -/
def store (manifest : Manifest) : DiskM Unit := do
  let bytes ← ExceptT.mk (pure manifest.encode)
  let temporary := FileName.temporary FileName.manifest
  let file ← Disk.create temporary
  Disk.write file 0 bytes
  Disk.orElse (Disk.mutate (.rename temporary FileName.manifest))
    (Disk.attempt (.unlink temporary))

end LsmTree.Manifest
