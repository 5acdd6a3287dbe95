import LsmTree.Session.Answer

/-!
# Steps on cursors
-/

namespace LsmTree

/-- A step on the cursor of a name. -/
inductive CursorStep
  /-- Makes a cursor over given entries, in whatever order they are. -/
  | list (entries : List Entry)
  /-- Makes a merge of the named cursors, newest first, which are used up. -/
  | merge (sources : List String)
  | next (count : Nat)
  | rest
  | live
  | length
  | drop

namespace CursorStep

/-- The cursor of a name, at the depth of all cursors. -/
def source (session : Session) (name : String) :
    Except StepFault (Source session.cursors.depth) :=
  match Named.get? session.cursors.named name with
  | some source => .ok source
  | none => .error .noObject

/-- Puts another cursor under a name. -/
def replace (session : Session) (name : String) (source : Source session.cursors.depth) : Session :=
  { session with
    cursors := ⟨session.cursors.depth, Named.put session.cursors.named name source⟩ }

/-- Reads the cursors of a session. -/
def reader (session : Session) : Reader (Source session.cursors.depth) :=
  Source.reader session.memory session.cursors.depth

/-- Takes the named cursors out and makes a merge of them. -/
def mergeAll (session : Session) (name : String) (sources : List String) :
    Except StepFault Answer × Session :=
  let (found, named) := Cursors.takeAll session.cursors.named sources
  let left : Cursors := ⟨session.cursors.depth, named⟩
  match found with
  | none => (.error .noObject, { session with cursors := left })
  | some sources =>
    let merge := Merge.ofSources (reader session) sources
    let cursors : Cursors := ⟨left.depth + 1, Named.put left.deepen name (.inr merge)⟩
    (.ok (.number merge.liveSources), { session with cursors })

/-- What the step does to a session. -/
def apply (session : Session) (name : String) : CursorStep → Except StepFault Answer × Session
  | list entries =>
    (.ok .done, { session with cursors := session.cursors.addLeaf name (.list entries) })
  | merge sources => mergeAll session name sources
  | next count =>
    match source session name with
    | .error fault => (.error fault, session)
    | .ok source =>
      let (entries, source) := (reader session).steps count source
      (.ok (.lookups entries), replace session name source)
  | rest =>
    match source session name with
    | .error fault => (.error fault, session)
    | .ok source =>
      let (entries, source) := (reader session).drain source
      (.ok (.entries entries), replace session name source)
  | live =>
    match source session name with
    | .error fault => (.error fault, session)
    | .ok source =>
      match Source.liveSources? session.cursors.depth source with
      | some count => (.ok (.number count), session)
      | none => (.error .noObject, session)
  | length =>
    match source session name with
    | .error fault => (.error fault, session)
    | .ok source =>
      match Source.leaf? session.cursors.depth source with
      | some (.segment handle cursor) =>
        (.ok (.cursor handle.segment.generation cursor.remaining), session)
      | _ => (.error .noObject, session)
  | drop =>
    match source session name with
    | .error fault => (.error fault, session)
    | .ok _ =>
      let cursors : Cursors := ⟨session.cursors.depth, Named.erase session.cursors.named name⟩
      (.ok .done, { session with cursors })

/-- Takes the step. -/
def run (name : String) (step : CursorStep) : SessionM Answer :=
  ExceptT.mk fun session => step.apply session name

end CursorStep

end LsmTree
