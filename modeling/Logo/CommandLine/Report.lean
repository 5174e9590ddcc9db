import Logo.CommandLine.Arguments
import Logo.Grammar.Program
import Logo.Machine.Basic
import Logo.Number.Fixed
import Logo.Tree.Outline
import Logo.Turtle.Basic

/-!
# The command line program

What the program prints for its arguments: the tree of a script, the drawing log of a run or the
length of that log, or an error.
-/

namespace Logo

namespace CommandLine

/-! ## Files -/

/-- Why a file cannot be read. -/
inductive FileError where
  /-- There is no file at the path. -/
  | notFound
  /-- The path goes through something that is not a folder. -/
  | notFolder
  /-- The path leads to a folder. -/
  | isFolder
  /-- A part of the path is too long. -/
  | nameTooLong
  /-- The bytes of the file are no text. -/
  | notText
  /-- Any other reason, in words. -/
  | other (reason : String)
  deriving DecidableEq

/-- The wording of an error. -/
def FileError.message : FileError → String
  | .notFound => "No such file or directory (os error 2)"
  | .notFolder => "Not a directory (os error 20)"
  | .isFolder => "Is a directory (os error 21)"
  | .nameTooLong => "File name too long (os error 36)"
  | .notText => "stream did not contain valid UTF-8"
  | .other reason => reason

/-! ## Reports -/

/-- What the program leaves behind. -/
structure Report where
  /-- The exit status. -/
  exit : Nat
  /-- What is printed. -/
  stdout : String
  /-- What is printed about errors. -/
  stderr : String
  deriving DecidableEq

/-- The report of a success. -/
def Report.success (stdout : String) : Report := ⟨0, stdout, ""⟩

/-- The report of an error. -/
def Report.failure (message : String) : Report := ⟨1, "", message ++ "\n"⟩

/-- The answer to a request for the version. -/
def versionText : String := "turtle-logo 0.1.0\n"

/-- The line that shows how to use the program. -/
def usageText : String := "Usage: turtle-logo [OPTIONS] <CONTENTS>\n"

/-- The answer to a request for help. -/
def helpText : String :=
  String.intercalate "\n"
    ["turtle-logo runs turtle-graphics Logo scripts and prints what the turtle drew", "",
     usageText,
     "Arguments:",
     "  <CONTENTS>  ", "",
     "Options:",
     "  -f, --file             Tells turtle-logo to look at a file instead of a script",
     "      --tree             Prints the parse tree instead of running the script",
     "      --log              Prints every logged line and color change after the run",
     "      --speed <SPEED>    Speed from 1 (slowest) to 100 (no delay between turtle actions) " ++
       "[default: 100]",
     "      --width <WIDTH>    Canvas width in pixels [default: 600]",
     "      --height <HEIGHT>  Canvas height in pixels [default: 600]",
     "  -h, --help             Print help",
     "  -V, --version          Print version", ""]

/-- The report of a refusal. -/
def Refusal.report : Refusal → Report
  | .help => .success helpText
  | .version => .success versionText
  | .misuse => ⟨2, "", usageText⟩

/-! ## Runs -/

/-- A coordinate as it is printed, with two places. -/
def coordinate (x : Float) : String := fixedText 2 .kept x

/-- A point as it is printed. -/
def pointText (p : Point) : String := s!"({coordinate p.x}, {coordinate p.y})"

/-- The line that is printed for an entry of the drawing log. -/
def commandText : DrawCommand → String
  | .line start stop => s!"line {pointText start} -> {pointText stop}\n"
  | .color c => s!"color {c.red.toNat} {c.green.toNat} {c.blue.toNat}\n"

/-- What is printed of a canvas after a run. -/
def canvasText (showLog : Bool) (c : Canvas) : String :=
  if showLog then String.join (c.commands.toList.map commandText)
  else s!"{c.commands.size} drawing commands\n"

/-- The report of a machine that has come to its end. -/
def runReport (showLog : Bool) (m : Machine Turtle) : Report :=
  let drawn := canvasText showLog m.interpreter.actuator.canvas
  match m.progress with
  | .finished .completed => .success drawn
  | .finished .stopped => ⟨0, drawn, "Run stopped before completion.\n"⟩
  | .failed error => .failure error.message
  | .working _ => .failure "The run did not end."

/-- What there is to do for a script. -/
inductive Job where
  /-- Only to report. -/
  | report (r : Report)
  /-- To run a machine and report with or without its log. -/
  | run (showLog : Bool) (m : Machine Turtle)

/-- The report of a tree, or of one so deep that it has no outline. -/
def treeReport (t : Tree Token) : Report :=
  match (t.map Token.text).outline? with
  | some outline => .success (outline ++ "\n")
  | none => ⟨101, "", "The tree is too deep to be printed.\n"⟩

/-- What there is to do, given the script or why it could not be read. -/
def Arguments.job (a : Arguments) (script : Except FileError String) : Job :=
  match script with
  | .error error => .report (.failure s!"Failed to read '{a.contents}': {error.message}")
  | .ok source =>
    match parse source with
    | .error error => .report (.failure error.message)
    | .ok tree =>
      if a.showTree then .report (treeReport tree)
      else
        let turtle := Turtle.new (.new a.settings.width a.settings.height)
        .run a.showLog (.ofProgram (.new turtle (.ofSettings a.settings)) tree)

/-- The report of the program, given its arguments and what reading a path gives. -/
def report (args : List String) (read : String → Except FileError String) : Report :=
  match Arguments.ofList args with
  | .error refusal => refusal.report
  | .ok a =>
    match a.job (if a.isPath then read a.contents else .ok a.contents) with
    | .report r => r
    | .run showLog m => runReport showLog (m.run Machine.lifetime)

end CommandLine

end Logo
