/-!
# Run control

The flags with which a controller steers a run: it may be running or stopped, paused or not, and it
has a speed.  A run reads them between its steps and waits on them after every action of the turtle.
-/

namespace Logo

/-! ## Durations -/

/-- A span of time in whole nanoseconds, of at most `2 ^ 64 - 1` seconds and a fraction. -/
structure Duration where
  /-- The number of nanoseconds. -/
  nanoseconds : Nat
  /-- No duration is longer than the longest. -/
  lt_limit : nanoseconds < Nat.pow 2 64 * Nat.pow 10 9 := by decide
  deriving DecidableEq

namespace Duration

/-- The bound that every duration stays below, in nanoseconds. -/
def limit : Nat := Nat.pow 2 64 * Nat.pow 10 9

/-- The duration of the given nanoseconds, if there is such a duration. -/
def ofNanoseconds? (n : Nat) : Option Duration :=
  if h : n < limit then some ⟨n, h⟩ else none

/-- The duration of the given microseconds, if there is such a duration. -/
def ofMicroseconds? (n : Nat) : Option Duration := ofNanoseconds? (1000 * n)

/-- The whole microseconds of a duration. -/
def microseconds (d : Duration) : Nat := d.nanoseconds / 1000

/-- A multiple of a duration, unless it is too long. -/
def times? (d : Duration) (n : Nat) : Option Duration := ofNanoseconds? (d.nanoseconds * n)

end Duration

/-! ## Settings -/

/-- The size of the canvas and the pacing of a run. -/
structure Settings where
  /-- The width of the canvas. -/
  width : Nat := 600
  /-- The height of the canvas. -/
  height : Nat := 600
  /-- The speed, from 0 (halted) to 100 (no delay). -/
  speed : Nat := 100
  /-- The delay for each step of speed below 100: ten milliseconds. -/
  step : Duration := { nanoseconds := 10000000 }
  deriving DecidableEq

/-! ## The flags -/

/-- The fastest speed, at which nothing is delayed. -/
def maxSpeed : Nat := 100

/-- The state of a run as its controller sees it. -/
structure RunControl where
  /-- Whether the run may go on. -/
  running : Bool
  /-- Whether the run is suspended. -/
  paused : Bool
  /-- The speed, at most `maxSpeed`. -/
  speed : Nat
  /-- The delay for each step of speed below `maxSpeed`. -/
  step : Duration
  deriving DecidableEq

/-- What a controller can do. -/
inductive ControlAction where
  /-- Mark the run as running and not paused. -/
  | start
  /-- Ask the run to halt. -/
  | stop
  /-- Suspend the run after its current action. -/
  | pause
  /-- End a suspension. -/
  | resume
  /-- Change the speed. -/
  | setSpeed (speed : Nat)
  deriving DecidableEq

/-- How long a run waits after an action. -/
inductive Delay where
  /-- Until the speed changes. -/
  | endless
  /-- For a span of time. -/
  | lasting (d : Duration)
  /-- For longer than any duration, which is a fault. -/
  | tooLong
  deriving DecidableEq

namespace RunControl

/-- A running, unpaused control; a speed above the fastest counts as the fastest. -/
def new (speed : Nat) (step : Duration) : RunControl := ⟨true, false, min speed maxSpeed, step⟩

/-- The control for some settings. -/
def ofSettings (s : Settings) : RunControl := new s.speed s.step

/-- Carries out an action. -/
def apply (c : RunControl) : ControlAction → RunControl
  | .start => { c with running := true, paused := false }
  | .stop => { c with running := false }
  | .pause => { c with paused := true }
  | .resume => { c with paused := false }
  | .setSpeed speed => { c with speed := min speed maxSpeed }

/-- Carries out actions in order. -/
def applyAll (c : RunControl) (actions : List ControlAction) : RunControl := actions.foldl apply c

/-- The delay after an action at the current speed: none at the fastest, one step more for each
speed below it, and endless at speed 0. -/
def delay (c : RunControl) : Delay :=
  if c.speed = 0 then .endless
  else
    match c.step.times? (maxSpeed - c.speed) with
    | some d => .lasting d
    | none => .tooLong

/-! ## Waiting -/

/-- Whether a run that waits stays where it is until a controller acts: it is running, and paused or
at speed 0. -/
def holds (c : RunControl) : Bool := c.running && (c.paused || c.speed = 0)

/-- Whether a run that begins to wait does so at all.  A stopped run never waits. -/
def waits (c : RunControl) : Bool :=
  c.running && (c.paused || c.delay ≠ .lasting { nanoseconds := 0 })

/-- Follows one wait under a list of actions, all made before any delay is over: whether it still
lasts right before each action, and the control in the end. -/
def followWait (c : RunControl) (waiting : Bool) : List ControlAction → List Bool × RunControl
  | [] => ([], c)
  | action :: actions =>
    let changed := c.apply action
    let (later, last) := followWait changed (waiting && changed.waits) actions
    (waiting :: later, last)

/-! ## The speed stays in range -/

/-- No action takes the speed above the fastest. -/
theorem speed_apply_le {c : RunControl} (h : c.speed ≤ maxSpeed) (action : ControlAction) :
    (c.apply action).speed ≤ maxSpeed := by
  cases action with
  | setSpeed speed => exact Nat.min_le_right _ _
  | _ => exact h

end RunControl

end Logo
