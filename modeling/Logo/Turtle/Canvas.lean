import Logo.Color

/-!
# Canvases

A canvas is a log of drawing commands that grows as the turtle moves, together with the outline in
which the turtle itself is shown.  The outline is overwritten in place and never logged.
-/

namespace Logo

/-- A point of the screen: the origin is the top left corner and `y` grows downward. -/
structure Point where
  /-- How far right. -/
  x : Float
  /-- How far down. -/
  y : Float

/-- An entry of a drawing log. -/
inductive DrawCommand where
  /-- A straight line in the current color. -/
  | line (start stop : Point)
  /-- Another color for the lines that follow. -/
  | color (rgb : Rgb)

/-- The outline of a turtle. -/
structure Pose where
  /-- The tip in the direction of the heading. -/
  nose : Point
  /-- The corner behind it on the left. -/
  leftWing : Point
  /-- The corner behind it on the right. -/
  rightWing : Point

/-- A drawing log and an outline on an area of the screen. -/
structure Canvas where
  /-- The width of the area. -/
  width : Nat
  /-- The height of the area. -/
  height : Nat
  /-- The log, oldest entry first. -/
  commands : Array DrawCommand
  /-- The outline published last. -/
  pose : Pose

namespace Canvas

/-- An empty canvas. -/
def new (width height : Nat) : Canvas := ⟨width, height, #[], ⟨⟨0, 0⟩, ⟨0, 0⟩, ⟨0, 0⟩⟩⟩

/-- Appends an entry to the log. -/
def addCommand (c : Canvas) (command : DrawCommand) : Canvas :=
  { c with commands := c.commands.push command }

/-- Empties the log and keeps the outline. -/
def clear (c : Canvas) : Canvas := { c with commands := #[] }

/-- Publishes an outline. -/
def setPose (c : Canvas) (pose : Pose) : Canvas := { c with pose }

/-- The middle of the area. -/
def center (c : Canvas) : Point := ⟨c.width.toFloat / 2, c.height.toFloat / 2⟩

end Canvas

end Logo
