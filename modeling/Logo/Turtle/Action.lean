import Logo.Color

/-!
# Actions

Everything a running script can do to the outside is one of ten actions.  An actuator carries them
out and tells where it is; the coordinates it tells, and those of a jump, are centred on its home
with `y` growing upward.
-/

namespace Logo

/-- What a script asks of its actuator. -/
inductive Action where
  /-- Move along the heading, drawing if the pen is down. -/
  | forward (distance : Float)
  /-- Turn clockwise. -/
  | right (degrees : Float)
  /-- Turn counterclockwise. -/
  | left (degrees : Float)
  /-- Turn to a heading measured counterclockwise from east. -/
  | face (degrees : Float)
  /-- Lift the pen. -/
  | penUp
  /-- Lower the pen. -/
  | penDown
  /-- Return to the centre facing east, without drawing. -/
  | home
  /-- Move to a point without drawing. -/
  | jump (x y : Float)
  /-- Change the color of later lines. -/
  | color (rgb : Rgb)

/-- Something that carries out actions. -/
class Actuator (A : Type) where
  /-- Carries out one action. -/
  perform : Action → A → A
  /-- The current first coordinate. -/
  x : A → Float
  /-- The current second coordinate. -/
  y : A → Float

end Logo
