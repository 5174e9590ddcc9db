import Logo.Machine.Basic
import Logo.Session.Recorder

/-!
# Sessions

A session is a run that a controller steers while it goes on.  The controller follows a script of
its own: it acts, or it lets the run go on until a number of actions have been recorded.  The run does
not stand still meanwhile: it takes a step for each that the controller takes.  In addition the
actuator may react to single actions, by controlling the run from within or by crashing.
-/

namespace Logo

/-- What an actuator does besides an action. -/
inductive Reaction where
  /-- It controls the run. -/
  | control (action : ControlAction)
  /-- It crashes, with a text if it can tell one. -/
  | crash (text? : Option String)
  deriving DecidableEq

/-- A reaction to the action with the given number, counted from 1. -/
structure Cue where
  /-- The number of the action. -/
  call : Nat
  /-- What happens. -/
  reaction : Reaction
  deriving DecidableEq

/-- A step of a controller. -/
inductive Direction where
  /-- Act at once. -/
  | act (action : ControlAction)
  /-- Let the run go on until the given number of actions have been recorded, and report. -/
  | await (calls : Nat)
  deriving DecidableEq

/-- What a controller sees when it has waited. -/
structure Report where
  /-- The number of actions recorded. -/
  calls : Nat
  /-- Whether the run was over. -/
  finished : Bool
  deriving DecidableEq

/-- How a session goes wrong. -/
inductive SessionError where
  /-- The run failed. -/
  | runtime (error : RuntimeError)
  /-- The run crashed, with a text if there was one. -/
  | crashed (text? : Option String)

namespace SessionError

/-- The wording of an error. -/
def message : SessionError → String
  | .runtime error => error.message
  | .crashed text? => "The interpreter thread panicked: " ++ text?.getD "unknown panic"

end SessionError

/-- A run under a controller. -/
structure Session (A : Type) where
  /-- The run. -/
  machine : Machine (Recorder A)
  /-- The reactions of the actuator. -/
  cues : List Cue
  /-- What the controller has still to do. -/
  script : List Direction
  /-- What the controller has seen. -/
  reports : Array Report
  /-- The crash, if there was one. -/
  crash? : Option (Option String)

namespace Session

variable {A : Type}

/-- Marks the control as running and starts a program. -/
def spawn (actuator : A) (control : RunControl) (program : Node) (cues : List Cue)
    (script : List Direction) : Session A where
  machine := .ofProgram (.new (.mk actuator #[]) (control.apply .start)) program
  cues := cues
  script := script
  reports := #[]
  crash? := none

/-- The number of actions recorded. -/
def calls (s : Session A) : Nat := s.machine.interpreter.actuator.calls.size

/-- Whether the run is over. -/
def finished (s : Session A) : Bool := s.crash?.isSome || s.machine.halted

/-- The session after a reaction of its actuator. -/
def react (s : Session A) : Reaction → Session A
  | .control action => { s with machine := s.machine.control action }
  | .crash text? => { s with crash? := s.crash?.or (some text?) }

/-- The session after all reactions to the action with the given number. -/
def reactTo (s : Session A) (call : Nat) : Session A :=
  (s.cues.filter fun cue => cue.call = call).foldl (fun s cue => s.react cue.reaction) s

/-- Lets the run take one step, and the actuator react if the step was an action. -/
def advance [Actuator A] (s : Session A) : Session A :=
  let before := s.calls
  let next := { s with machine := s.machine.step }
  if before < next.calls then next.reactTo next.calls else next

/-- The session after the first direction of the controller, if its time has come. -/
def direct? (s : Session A) : Option (Session A) :=
  match s.script with
  | [] => none
  | .act action :: script => some { s with script, machine := s.machine.control action }
  | .await calls :: script =>
    if calls ≤ s.calls || s.finished then
      some { s with script, reports := s.reports.push ⟨s.calls, s.finished⟩ }
    else none

/-- Whether nothing can happen any more. -/
def settled (s : Session A) : Bool :=
  s.direct?.isNone && (s.finished || s.machine.blocked)

/-- Takes one step: the controller's if it has one to take, and the run's.  A wait outlasts the
controller's steps; it ends when the controller has none to take. -/
def step [Actuator A] (s : Session A) : Session A :=
  match s.direct? with
  | some s => if s.finished || s.machine.waiting then s else s.advance
  | none => if s.finished then s else s.advance

/-- Takes steps until nothing can happen any more, but no more than the given number. -/
def run [Actuator A] : Nat → Session A → Session A
  | 0, s => s
  | fuel + 1, s => if s.settled then s else run fuel s.step

/-- How the run ended, if it has. -/
def outcome? (s : Session A) : Option (Except SessionError Outcome) :=
  match s.crash? with
  | some text? => some (.error (.crashed text?))
  | none =>
    match s.machine.progress with
    | .working _ => none
    | .finished outcome => some (.ok outcome)
    | .failed error => some (.error (.runtime error))

end Session

end Logo
