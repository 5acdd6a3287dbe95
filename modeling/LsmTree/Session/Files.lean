import LsmTree.Session.Answer

/-!
# Steps on the files of the volume
-/

namespace LsmTree

/-- A step on the files of the volume, from outside the store. -/
inductive FileStep
  | write (path : String) (bytes : Bytes)
  | patch (path : String) (offset : Nat) (bytes : Bytes)
  | resize (path : String) (length : Nat)
  | append (path : String) (bytes : Bytes)
  | copy (source target : String)
  | move (source target : String)
  | makeFolder (path : String)
  | removeFolder (path : String)
  | remove (path : String)
  | read (path : String)
  | list (path : String)

namespace FileStep

/-- The answer of a step that looks at the volume. -/
def tell (volume : Volume) (answer : Except OsError Answer) : Except OsError Answer × Volume :=
  (answer, volume)

/-- The answer of a step that changes the volume; a change that is refused leaves it as it is. -/
def change (volume : Volume) (changed : Except OsError Volume) : Except OsError Answer × Volume :=
  match changed with
  | .ok volume => (.ok .done, volume)
  | .error cause => (.error cause, volume)

/-- Makes another file of the one at a path. -/
def edit (volume : Volume) (path : String) (f : Bytes → Bytes) : Except OsError Volume := do
  volume.writeFile path (f (← volume.readFile path))

/-- The answer to a step, and what the step makes of the volume. -/
def apply (volume : Volume) : FileStep → Except OsError Answer × Volume
  | write path bytes => change volume (volume.writeFile path bytes)
  | patch path offset bytes =>
    change volume (edit volume path fun old => Contents.overwritten old offset bytes)
  | resize path length => change volume (edit volume path fun old => Contents.resized old length)
  | append path bytes => change volume (edit volume path fun old => old ++ bytes)
  | copy source target =>
    change volume ((volume.readFile source).bind (volume.writeFile target))
  | move source target => change volume (volume.move source target)
  | makeFolder path =>
    -- What was made on the way stays, even if the rest is refused.
    let (made, volume) := volume.makeAll path
    (made.map fun _ => .done, volume)
  | removeFolder path => change volume (volume.removeFolder path)
  | remove path => change volume (volume.removeFile path)
  | read path => tell volume ((volume.readFile path).map .bytes)
  | list path => tell volume ((volume.listing path).map .listing)

/-- Takes the step. -/
def run (step : FileStep) : SessionM Answer := do
  let session ← get
  let (answer, volume) := step.apply session.volume
  set { session with volume }
  match answer with
  | .ok answer => return answer
  | .error cause => throw (.files cause)

end FileStep

end LsmTree
