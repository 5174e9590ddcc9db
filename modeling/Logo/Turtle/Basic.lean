import Logo.Number.Binary64
import Logo.Turtle.Action
import Logo.Turtle.Canvas

/-!
# The turtle

An actuator that draws its trail on a canvas.  Its position is a point of the screen and its heading
is measured clockwise from east, which is how a turn looks on a screen whose `y` axis points down.
-/

namespace Logo

/-! ## Angles -/

/-- The radians of one degree. -/
def radiansPerDegree : Float := 0.017453292519943295

/-- The remainder of an angle on division by a full turn, moved up by a turn if it is negative.  A
tiny negative angle can round up to the full turn, which is no turn at all. -/
def normalizeDegrees (degrees : Float) : Float :=
  let remainder := (Binary64.ofFloat degrees).remainder 360
  let turned := if remainder < 0 then remainder + 360 else remainder
  if turned ≥ 360 then 0 else turned

/-- The point at a distance in a direction. -/
def Point.offset (start : Point) (distance degrees : Float) : Point :=
  let radians := degrees * radiansPerDegree
  ⟨start.x + distance * radians.cos, start.y + distance * radians.sin⟩

/-- How far the nose is from the position. -/
def noseLength : Float := 12

/-- How far the wings are from the position. -/
def wingLength : Float := 6

/-- The angle between the nose and either wing. -/
def wingAngle : Float := 135

/-- The outline of a turtle at a position with a heading. -/
def Pose.of (position : Point) (heading : Float) : Pose where
  nose := position.offset noseLength heading
  leftWing := position.offset wingLength (heading - wingAngle)
  rightWing := position.offset wingLength (heading + wingAngle)

/-! ## The turtle -/

/-- A turtle on its canvas. -/
structure Turtle where
  /-- The canvas it draws on. -/
  canvas : Canvas
  /-- Where it is on the screen. -/
  position : Point
  /-- Its heading in degrees clockwise from east. -/
  heading : Float
  /-- Whether it draws when it moves. -/
  penIsDown : Bool

namespace Turtle

/-- Publishes the outline for the current position and heading. -/
def refreshPose (t : Turtle) : Turtle :=
  { t with canvas := t.canvas.setPose (.of t.position t.heading) }

/-- Turns to a heading measured clockwise from east. -/
def turnTo (t : Turtle) (degrees : Float) : Turtle :=
  refreshPose { t with heading := normalizeDegrees degrees }

/-- Moves to a point without drawing. -/
def moveTo (t : Turtle) (position : Point) : Turtle := refreshPose { t with position }

/-- Moves along the heading, and draws a line if the pen is down. -/
def forward (t : Turtle) (distance : Float) : Turtle :=
  let target := t.position.offset distance t.heading
  let canvas := if t.penIsDown then t.canvas.addCommand (.line t.position target) else t.canvas
  moveTo { t with canvas } target

/-- Returns to the middle of the canvas, facing east. -/
def home (t : Turtle) : Turtle := turnTo { t with position := t.canvas.center } 0

/-- Moves to a point given relative to the middle of the canvas, with `y` growing upward. -/
def jumpTo (t : Turtle) (x y : Float) : Turtle :=
  t.moveTo ⟨t.canvas.center.x + x, t.canvas.center.y - y⟩

/-- A turtle in the middle of a canvas, facing east with the pen down. -/
def new (canvas : Canvas) : Turtle := home ⟨canvas, ⟨0, 0⟩, 0, true⟩

/-- Carries out an action. -/
def perform (action : Action) (t : Turtle) : Turtle :=
  match action with
  | .forward distance => t.forward distance
  | .right degrees => t.turnTo (t.heading + degrees)
  | .left degrees => t.turnTo (t.heading - degrees)
  | .face degrees => t.turnTo (-degrees)
  | .penUp => { t with penIsDown := false }
  | .penDown => { t with penIsDown := true }
  | .home => t.home
  | .jump x y => t.jumpTo x y
  | .color rgb => { t with canvas := t.canvas.addCommand (.color rgb) }

instance : Actuator Turtle where
  perform := perform
  x t := t.position.x - t.canvas.center.x
  y t := t.canvas.center.y - t.position.y

end Turtle

end Logo
