import Logo.Machine.Interpreter

/-!
# Machines

A script runs as a machine that takes one step at a time.  A step reads the running flag, has one
action carried out, or waits; so a controller that acts between two steps can act at any moment of a
run.  What is left to be done is a list of tasks, which takes the place of a call stack.

Once the run is stopped, every node that is still to be executed and every loop is dropped, while
calls are left in order.  After an error nothing is executed any more and all calls are left at
once.
-/

namespace Logo

/-- How a run without an error ends. -/
inductive Outcome where
  /-- The run was going on when its last task was done. -/
  | completed
  /-- The run had been stopped. -/
  | stopped
  deriving DecidableEq

/-- How far a machine has come. -/
inductive Progress where
  /-- There are tasks left, or the outcome is still to be told. -/
  | working (tasks : List Task)
  /-- The run has ended without an error. -/
  | finished (outcome : Outcome)
  /-- The run has ended with an error. -/
  | failed (error : RuntimeError)

/-- A script in the middle of its run. -/
structure Machine (A : Type) where
  /-- What the script can see and change. -/
  interpreter : Interpreter A
  /-- How far it has come. -/
  progress : Progress

/-- Whether a task leaves a call. -/
def Task.isLeave : Task → Bool
  | .leave => true
  | _ => false

namespace Interpreter

variable {A : Type}

/-- Leaves the calls that the tasks would have left. -/
def unwind (i : Interpreter A) (tasks : List Task) : Interpreter A :=
  { i with scope := i.scope.pop (tasks.countP Task.isLeave) }

end Interpreter

namespace Machine

variable {A : Type}

/-! ## Starting -/

/-- A machine about to execute one node. -/
def ofNode (i : Interpreter A) (node : Node) : Machine A := ⟨i, .working [.exec node]⟩

/-- A machine about to forget all variables and procedures and to send the actuator home. -/
def ofReset (i : Interpreter A) : Machine A := ⟨i.cleared, .working [.act .home]⟩

/-- A machine about to run a script from the start. -/
def ofProgram (i : Interpreter A) (program : Node) : Machine A :=
  ⟨i.cleared, .working [.act .home, .exec program]⟩

/-! ## Stepping -/

/-- The machine after a controller's action. -/
def control (m : Machine A) (action : ControlAction) : Machine A :=
  { m with interpreter := { m.interpreter with control := m.interpreter.control.apply action } }

/-- The machine with other tasks. -/
def withTasks (m : Machine A) (tasks : List Task) : Machine A :=
  { m with progress := .working tasks }

/-- The machine after an error, with the given tasks not to be done any more. -/
def fail (m : Machine A) (error : RuntimeError) (tasks : List Task) : Machine A :=
  ⟨m.interpreter.unwind tasks, .failed error⟩

/-- Does the first part of a task, with the rest of the tasks behind it. -/
def perform [Actuator A] (m : Machine A) (rest : List Task) : Task → Machine A
  | .exec node =>
    if m.interpreter.control.running then
      match Effect.exec node m.interpreter with
      | .ok tasks i => ⟨i, .working (tasks ++ rest)⟩
      | .error error i => Machine.fail ⟨i, m.progress⟩ error rest
    else m.withTasks rest
  | .act action =>
    ⟨{ m.interpreter with actuator := Actuator.perform action m.interpreter.actuator },
      .working rest⟩
  | .pace => if m.interpreter.control.holds then m else m.withTasks rest
  | .rounds 0 _ => m.withTasks rest
  | .rounds (count + 1) body =>
    m.withTasks
      (if m.interpreter.control.running then .exec body :: .rounds count body :: rest else rest)
  | .loop condition body =>
    if m.interpreter.control.running then
      match m.interpreter.surroundings.condition condition with
      | .ok true => m.withTasks (.exec body :: .loop condition body :: rest)
      | .ok false => m.withTasks rest
      | .error error => m.fail error rest
    else m.withTasks rest
  | .leave => ⟨{ m.interpreter with scope := m.interpreter.scope.pop 1 }, .working rest⟩

/-- Takes one step.  The last step of a run reads once more whether it is running. -/
def step [Actuator A] (m : Machine A) : Machine A :=
  match m.progress with
  | .working [] =>
    { m with
      progress := .finished (if m.interpreter.control.running then .completed else .stopped) }
  | .working (task :: rest) => m.perform rest task
  | .finished _ => m
  | .failed _ => m

/-- Whether the run is over. -/
def halted (m : Machine A) : Bool :=
  match m.progress with
  | .working _ => false
  | .finished _ => true
  | .failed _ => true

/-- Whether the run waits for its controller. -/
def blocked (m : Machine A) : Bool :=
  match m.progress with
  | .working (.pace :: _) => m.interpreter.control.holds
  | _ => false

/-- Whether the run is in a wait that lasts, if only for a span of time. -/
def waiting (m : Machine A) : Bool :=
  match m.progress with
  | .working (.pace :: _) => m.interpreter.control.waits
  | _ => false

/-- Takes steps until the run is over or waits for its controller, but no more than the given
number. -/
def run [Actuator A] : Nat → Machine A → Machine A
  | 0, m => m
  | fuel + 1, m => if m.halted || m.blocked then m else run fuel m.step

/-- More steps than any machine can take in the lifetime of a computer. -/
def lifetime : Nat := Nat.pow 2 62

end Machine

end Logo
