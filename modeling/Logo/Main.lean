import Logo.CommandLine.Report

/-!
# The program

Reads the arguments and the script, lets the machine run in real time, and prints the report.
-/

namespace Logo

namespace CommandLine

/-- Reads the text of a file. -/
def readScript (path : String) : IO (Except FileError String) := do
  try
    let bytes ← IO.FS.readBinFile path
    match String.fromUTF8? bytes with
    | some text => return .ok text
    | none => return .error .notText
  catch error =>
    match error with
    | .noFileOrDirectory .. => return .error .notFound
    | .inappropriateType .. => return .error .isFolder
    | other => return .error (.other (toString other))

/-- Lets a machine run to its end, waiting after each action as its control demands. -/
partial def runInTime (m : Machine Turtle) : IO (Machine Turtle) := do
  if m.halted then return m
  if let .working (.pace :: _) := m.progress then
    if m.interpreter.control.running then
      if let .lasting d := m.interpreter.control.delay then
        if 0 < d.nanoseconds then IO.sleep (UInt32.ofNat (d.microseconds / 1000))
  runInTime m.step

/-- Does what the arguments ask for. -/
def execute (args : List String) : IO Report := do
  match Arguments.ofList args with
  | .error refusal => return refusal.report
  | .ok a =>
    let script ← if a.isPath then readScript a.contents else pure (.ok a.contents)
    match a.job script with
    | .report r => return r
    | .run showLog m => return runReport showLog (← runInTime m)

end CommandLine

end Logo

/-- Runs a script given on the command line. -/
def main (args : List String) : IO UInt32 := do
  let report ← Logo.CommandLine.execute args
  IO.print report.stdout
  IO.eprint report.stderr
  return UInt32.ofNat report.exit
