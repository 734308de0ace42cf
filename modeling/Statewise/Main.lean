import Statewise.CommandLine.Run

/-!
# The program

Reads the job file that the command line names, prints what the command reports, and exits with its
code. Failures and messages go to standard error.
-/

namespace Statewise

/-- The text of a file, if there is one. -/
def readText? (file : String) : IO (Option String) := do
  try return some (← IO.FS.readFile file) catch _ => return none

/-- Seconds with three decimal places. -/
def secondsText (milliseconds : Nat) : String :=
  let places := toString (milliseconds % 1000)
  toString (milliseconds / 1000) ++ "." ++ "".pushn '0' (3 - places.length) ++ places

/-- The parts of a diagnostic: its name, its message and advice. -/
def Failure.diagnostic (f : Failure) : String :=
  Report.joinLines (f.code?.toList ++ [f.message] ++ (f.help?.map ("help: " ++ ·)).toList)

/-- Print a report; the time is counted from `start`. -/
def Report.print (r : Report) (verbose : Bool) (start : Nat) : IO Unit := do
  let stderr ← IO.getStderr
  if verbose then r.messages.forM fun m => stderr.putStrLn m
  IO.print r.output
  if r.timed then IO.println ("Time: " ++ secondsText ((← IO.monoMsNow) - start) ++ "s")
  match r.failure with
  | none => return ()
  | some f => stderr.putStr f.diagnostic

end Statewise

open Statewise

def main (words : List String) : IO UInt32 := do
  match Invocation.ofWords? words with
  | none =>
    (← IO.getStderr).putStr Failure.usage.diagnostic
    return Failure.usage.exitCode.toUInt32
  | some i =>
    let content ← readText? i.file
    let start ← IO.monoMsNow
    let report := i.run content
    report.print i.verbose start
    return report.exitCode.toUInt32
