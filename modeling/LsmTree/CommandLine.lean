import LsmTree.CommandLine.Arguments
import LsmTree.Maintenance
import LsmTree.Text.Decimal
import LsmTree.Text.Utf8

/-!
# The command line

Each run opens the engine, carries out one command and closes the engine again. A run succeeds only if
all three do; what it printed before a failure stays printed.

* **`CommandLine.run`** is a run, from the arguments to the output and the volume it leaves.
-/

namespace LsmTree.CommandLine

/-- What a run leaves: its exit code, what it printed, and the volume. -/
structure Outcome where
  code : Nat
  output : String
  volume : Volume

/-- The text that tells the version. -/
def versionText : String := "stratakv-cli 0.1.0\n"

/-- The text that tells how the program is used. -/
def helpText : String :=
  "Usage: stratakv-cli [--data-dir DIR] [--verify] get|put|del|scan|flush|compact|stats\n"

/-- The exit code of a run that succeeded. -/
def success : Nat := 0

/-- The exit code of a run that failed. -/
def failure : Nat := 1

/-- The exit code of a run whose arguments are not well-formed. -/
def misuse : Nat := 2

/-- The settings that the options ask for. -/
def config (options : Options) : Config :=
  { dataDir := options.dataDir.getD ({} : Config).dataDir, verifyChecksums := options.verify }

/-- A list of generations between brackets. -/
def generationsText (generations : List UInt64) : String :=
  "[" ++ String.intercalate ", " (generations.map fun g => Text.Decimal.text g.toNat) ++ "]"

/-- The line of an entry in a scan. -/
def entryLine (entry : Entry) : String :=
  Text.Utf8.decode entry.key ++ "\t" ++ Text.Utf8.decode entry.valueBytes ++ "\n"

/-- The lines that tell about an engine. -/
def statsText (engine : Engine) : String :=
  "data_dir:        " ++ engine.config.dataDir ++ "\n" ++
    "segments:        " ++ Text.Decimal.text engine.segments.length ++ "\n" ++
    "generations:     " ++ generationsText engine.generations ++ "\n" ++
    "next_generation: " ++ Text.Decimal.text engine.manager.next.toNat ++ "\n"

/-- Writes an entry and confirms it. -/
def write (entry : Entry) : Maintenance.MaintenanceM String := do
  let workspace ← get
  match workspace.engine.upsert workspace.memory entry with
  | .error error => throw error
  | .ok memory =>
    set { workspace with memory }
    return "OK\n"

/-- Carries out a command and returns what it prints. -/
def execute : Command → Maintenance.MaintenanceM String
  | .get key => do
    let { engine, memory, .. } ← get
    match ← ExceptT.mk (pure (engine.get memory (Text.Utf8.encode key))) with
    | some value => return Text.Utf8.decode value ++ "\n"
    | none => return "(nil)\n"
  | .put key value => write (.put (Text.Utf8.encode key) (Text.Utf8.encode value))
  | .del key => write (.tombstone (Text.Utf8.encode key))
  | .scan start stop => do
    let { engine, memory, .. } ← get
    let range : KeyRange := ⟨start.map Text.Utf8.encode, stop.map Text.Utf8.encode⟩
    let entries ← ExceptT.mk (pure (engine.entries memory range))
    return String.join (entries.map entryLine)
  | .flush => do
    Maintenance.flush
    return "OK\n"
  | .compact => do
    let _ ← Maintenance.compact fun _ => false
    return "OK\n"
  | .stats => return statsText (← get).engine

/-- Carries out a command and closes the engine. If the engine is not closed then, because the command
or the closing failed, letting go of it tries to close it once more. Returns what was printed and
whether all went well. -/
def session (command : Command) : StateM Maintenance.Workspace (String × Bool) := do
  let printed ← (execute command).run
  let closed ← match printed with
    | .ok _ => Maintenance.close.run
    | .error error => pure (.error error)
  let output := match printed with
    | .ok text => text
    | .error _ => ""
  match closed with
  | .ok _ => return (output, true)
  | .error _ =>
    -- The run has failed already, whatever comes of this.
    let _ ← Maintenance.close.run
    return (output, false)

/-- Carries out a command on the data directory that the options name. -/
def invoke (invocation : Invocation) (volume : Volume) : Outcome :=
  match Engine.load (config invocation.options) .empty volume with
  | (.error _, volume) => ⟨failure, "", volume⟩
  | (.ok (engine, memory), volume) =>
    match Maintenance.run (session invocation.command) engine memory volume with
    | ((output, done), _, _, volume) => ⟨if done then success else failure, output, volume⟩

/-- Runs the program on its arguments. -/
def run (arguments : List String) (volume : Volume) : Outcome :=
  match Arguments.parse arguments with
  | .ok invocation => invoke invocation volume
  | .error .usage => ⟨misuse, "", volume⟩
  | .error .version => ⟨success, versionText, volume⟩
  | .error .help => ⟨success, helpText, volume⟩

end LsmTree.CommandLine
