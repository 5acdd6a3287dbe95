import LsmTree.Session.Cursors
import LsmTree.Session.Engines
import LsmTree.Session.Files
import LsmTree.Session.Segments
import LsmTree.Session.Tables

/-!
# Steps of a session

A script is a list of steps, taken one after the other from the empty session. Each has an answer of
its own, and one that fails does not keep the next from being taken.
-/

namespace LsmTree

/-- A step of a session. -/
inductive Step
  | file (step : FileStep)
  | table (name : String) (step : TableStep)
  | cursor (name : String) (step : CursorStep)
  | builder (name : String) (step : BuilderStep)
  | segment (name : String) (step : SegmentStep)
  | manifest (dir : String) (step : ManifestStep)
  | manager (name : String) (step : ManagerStep)
  | engine (name : String) (step : EngineStep)
  /-- Runs the program on its arguments. -/
  | commandLine (arguments : List String)

namespace Step

/-- Runs the program on the volume of the session. -/
def runCommandLine (arguments : List String) : SessionM Answer := do
  let session ← get
  let outcome := CommandLine.run arguments session.volume
  set { session with volume := outcome.volume }
  return .outcome outcome.code outcome.output

/-- Takes a step, and then takes away the files that nobody holds any more. -/
def run (step : Step) : StateM Session (Except StepFault Answer) := do
  let answer ← ExceptT.run <| match step with
    | file step => step.run
    | table name step => step.run name
    | cursor name step => step.run name
    | builder name step => step.run name
    | segment name step => step.run name
    | manifest dir step => step.run dir
    | manager name step => step.run name
    | engine name step => step.run name
    | commandLine arguments => runCommandLine arguments
  Session.release
  return answer

end Step

/-- The answers to the steps of a script. -/
def Session.script (steps : List Step) : List (Except StepFault Answer) :=
  ((steps.mapM Step.run).run .empty).1

end LsmTree
