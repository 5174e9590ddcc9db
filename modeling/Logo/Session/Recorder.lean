import Logo.Turtle.Action

/-!
# Recording actuators

Actuators for following what a script does: one that only keeps a position and one that keeps a
record of every action.
-/

namespace Logo

/-- An actuator that walks along a line whatever its heading, unless it jumps. -/
structure Walker where
  /-- The first coordinate. -/
  x : Float
  /-- The second coordinate. -/
  y : Float

namespace Walker

/-- The walker at the centre. -/
def centered : Walker := ⟨0, 0⟩

/-- Carries out an action; all but moves, jumps and returns leave the walker where it is. -/
def perform (action : Action) (w : Walker) : Walker :=
  match action with
  | .forward distance => { w with x := w.x + distance }
  | .jump x y => ⟨x, y⟩
  | .home => centered
  | _ => w

instance : Actuator Walker where
  perform := perform
  x := Walker.x
  y := Walker.y

end Walker

/-- An actuator that records the actions it passes on to another one. -/
structure Recorder (A : Type) where
  /-- The actuator that carries out the actions. -/
  inner : A
  /-- The actions, oldest first. -/
  calls : Array Action

namespace Recorder

variable {A : Type} [Actuator A]

/-- A recorder that has recorded nothing. -/
def new (inner : A) : Recorder A := ⟨inner, #[]⟩

instance : Actuator (Recorder A) where
  perform action r := ⟨Actuator.perform action r.inner, r.calls.push action⟩
  x r := Actuator.x r.inner
  y r := Actuator.y r.inner

end Recorder

end Logo
