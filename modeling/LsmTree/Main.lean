import LsmTree.CommandLine

/-!
# The program

The program runs the command line given by its arguments, and after it those on standard input, a line
each, until the input ends. All of them work on one volume, which is empty at first and lasts as long as
the program. The exit code is that of the last run.
-/

namespace LsmTree.CommandLine

/-- Runs a command line, prints what it prints, and returns its exit code with the volume it leaves. -/
def runPrinting (arguments : List String) (volume : Volume) : IO (UInt32 × Volume) := do
  let outcome := run arguments volume
  IO.print outcome.output
  return (outcome.code.toUInt32, outcome.volume)

/-- Runs a command line and then one for each line of the input. -/
def serve (arguments : List String) (input : IO.FS.Stream) : IO UInt32 := do
  let mut (code, volume) ← runPrinting arguments .empty
  repeat
    let line ← input.getLine
    if line.isEmpty then
      break
    (code, volume) ← runPrinting (Arguments.ofLine line) volume
  return code

end LsmTree.CommandLine

/-- Runs the program. -/
def main (arguments : List String) : IO UInt32 := do
  LsmTree.CommandLine.serve arguments (← IO.getStdin)
