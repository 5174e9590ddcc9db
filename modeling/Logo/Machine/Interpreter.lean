import Logo.Control
import Logo.Machine.Expression
import Logo.Machine.Operand
import Logo.Machine.Scope
import Logo.Turtle.Action

/-!
# Commands

What a node of a script does at once when it is executed, and what it leaves to be done.  Commands
with an action leave the action and a wait; loops and calls leave their body.  Everything that can
fail in a command happens before anything it leaves.
-/

namespace Logo

/-! ## Procedures -/

/-- A procedure that a script defines. -/
structure Procedure where
  /-- The parameters in the order of the arguments. -/
  parameters : List String
  /-- The block to be executed. -/
  body : Node

/-- The name and the procedure that a definition gives. -/
def Procedure.ofDefinition (definition : Node) : Fallible (String × Procedure) := do
  let (header, body) ← definition.expectTwo
  let (name, parameters) ← Node.expectTwo header
  return (Node.text name, ⟨(Tree.children parameters).map Node.text, body⟩)

/-- How many calls may be active at once. -/
def maxCallDepth : Nat := 5000

/-! ## Interpreters -/

/-- What a running script can see and change. -/
structure Interpreter (A : Type) where
  /-- What carries out its actions. -/
  actuator : A
  /-- The flags that steer it. -/
  control : RunControl
  /-- Its variables. -/
  scope : Scope
  /-- Its procedures. -/
  procedures : Table Procedure

namespace Interpreter

variable {A : Type}

/-- An interpreter without variables and procedures. -/
def new (actuator : A) (control : RunControl) : Interpreter A := ⟨actuator, control, .empty, .empty⟩

/-- The interpreter without its variables and procedures. -/
def cleared (i : Interpreter A) : Interpreter A := { i with scope := .empty, procedures := .empty }

/-- What the expressions of the script can see. -/
def surroundings [Actuator A] (i : Interpreter A) : Surroundings :=
  ⟨Actuator.x i.actuator, Actuator.y i.actuator, i.scope.valueOf?⟩

end Interpreter

/-- Something left to be done. -/
inductive Task where
  /-- Execute a node. -/
  | exec (node : Node)
  /-- Have an action carried out. -/
  | act (action : Action)
  /-- Wait as the control demands. -/
  | pace
  /-- Execute a body a number of times. -/
  | rounds (count : Nat) (body : Node)
  /-- Execute a body as long as a condition holds. -/
  | loop (condition body : Node)
  /-- Leave the innermost call. -/
  | leave

/-- The words at the head of executable nodes. -/
inductive Head where
  /-- A whole script. -/
  | program
  /-- Nodes in a row. -/
  | block
  /-- A move along the heading. -/
  | forward
  /-- A clockwise turn. -/
  | right
  /-- A counterclockwise turn. -/
  | left
  /-- A turn to a heading. -/
  | face
  /-- Lifting the pen. -/
  | penUp
  /-- Lowering the pen. -/
  | penDown
  /-- The return to the centre. -/
  | home
  /-- A change of color. -/
  | color
  /-- A move to a point. -/
  | jump
  /-- An assignment. -/
  | assignment
  /-- A counted loop. -/
  | repetition
  /-- A conditional loop. -/
  | whileLoop
  /-- A choice. -/
  | choice
  /-- A procedure call. -/
  | call
  deriving DecidableEq

namespace Head

/-- The words with their meaning. -/
def words : List (String × Head) :=
  [("program", program), ("block", block), ("forward", forward), ("right", right), ("left", left),
   ("face", face), ("penup", penUp), ("pendown", penDown), ("home", home), ("color", color),
   ("jump", jump), ("set", assignment), ("repeat", repetition), ("while", whileLoop),
   ("if", choice), ("do", call)]

/-- The meaning of a word. -/
def ofText? (text : String) : Option Head := words.lookup text

end Head

/-! ## Executing a node -/

/-- A computation on an interpreter that may fail; what it changed before it failed stays
changed. -/
abbrev Effect (A α : Type) : Type := EStateM RuntimeError (Interpreter A) α

namespace Effect

variable {A : Type}

/-- Passes a failure on. -/
def lift {α : Type} : Fallible α → Effect A α
  | .ok a => pure a
  | .error e => throw e

/-- An action and the wait that follows it. -/
def paced (action : Action) : List Task := [.act action, .pace]

/-- Registers definitions one by one; a later definition of a name replaces an earlier one. -/
def register : List Node → Effect A Unit
  | [] => return ()
  | definition :: definitions => do
    let (name, procedure) ← lift (Procedure.ofDefinition definition)
    modify fun i => { i with procedures := i.procedures.insert name procedure }
    register definitions

variable [Actuator A]

/-- The value of an expression. -/
def expression (node : Node) : Effect A Float := do
  let i ← get
  lift (i.surroundings.expression node)

/-- Whether a condition holds. -/
def condition (node : Node) : Effect A Bool := do
  let i ← get
  lift (i.surroundings.condition node)

/-- A move with the one operand of the node. -/
def move (node : Node) (action : Float → Action) : Effect A (List Task) := do
  let operand ← lift node.expectOne
  return paced (action (← expression operand))

/-- An action of a node without operands. -/
def bare (node : Node) (action : Action) : Effect A (List Task) := do
  lift node.expectNone
  return paced action

/-- A change of color.  All components are evaluated before any is checked. -/
def color (node : Node) : Effect A (List Task) := do
  let (red, green, blue) ← lift node.expectThree
  let r ← expression red
  let g ← expression green
  let b ← expression blue
  let rgb : Rgb := ⟨← lift (colorComponent r), ← lift (colorComponent g), ← lift (colorComponent b)⟩
  return paced (.color rgb)

/-- A jump. -/
def jump (node : Node) : Effect A (List Task) := do
  let (x, y) ← lift node.expectTwo
  return paced (.jump (← expression x) (← expression y))

/-- An assignment.  The value is found before the frame that takes it. -/
def assignment (node : Node) : Effect A (List Task) := do
  let (target, operand) ← lift node.expectTwo
  if Node.kind target ≠ .name then throw (.notAssignable (Node.text target))
  let value ← expression operand
  modify fun i => { i with scope := i.scope.store (Node.text target) value }
  return []

/-- A counted loop; a count below one means no round. -/
def repetition (node : Node) : Effect A (List Task) := do
  let (count, body) ← lift node.expectTwo
  let rounds ← lift (loopCount (← expression count))
  return [.rounds rounds.toNat body]

/-- A conditional loop. -/
def whileLoop (node : Node) : Effect A (List Task) := do
  let (condition, body) ← lift node.expectTwo
  return [.loop condition body]

/-- A choice between one or two blocks. -/
def choice (node : Node) : Effect A (List Task) := do
  match node.children with
  | [guard, chosen] => return if ← condition guard then [.exec chosen] else []
  | [guard, chosen, otherwise] => return [.exec (if ← condition guard then chosen else otherwise)]
  | _ => throw (node.malformed "2 or 3")

/-- Binds parameters to the values of arguments, from left to right; the last binding of a parameter
that is named twice is the one that counts. -/
def bind (frame : Frame) : List (String × Node) → Effect A Frame
  | [] => return frame
  | (parameter, argument) :: rest => do
    let value ← expression argument
    bind (frame.insert parameter value) rest

/-- A procedure call.  All arguments are evaluated in the frame of the caller, before the new frame
exists. -/
def call (node : Node) : Effect A (List Task) := do
  let (callee, arguments) ← lift node.expectTwo
  let name := Node.text callee
  let i ← get
  match i.procedures.find? name with
  | none => throw (.undefinedProcedure name)
  | some procedure =>
    let expected := procedure.parameters.length
    let found := Tree.childCount arguments
    if expected ≠ found then throw (.arityMismatch name expected found)
    let frame ← bind .empty (procedure.parameters.zip (Tree.children arguments))
    if maxCallDepth < i.scope.depth then throw (.recursionLimit name maxCallDepth)
    modify fun i => { i with scope := i.scope.push frame }
    return [.exec procedure.body, .leave]

/-- Executes a node as far as it goes at once; the answer is what it leaves to be done. -/
def exec (node : Node) : Effect A (List Task) :=
  match Head.ofText? node.text with
  | none => throw (.unsupported node.text)
  | some .program => do
    let (commands, procedures) ← lift node.expectTwo
    register (Tree.children procedures)
    return [.exec commands]
  | some .block => return node.children.map .exec
  | some .forward => move node .forward
  | some .right => move node .right
  | some .left => move node .left
  | some .face => move node .face
  | some .penUp => bare node .penUp
  | some .penDown => bare node .penDown
  | some .home => bare node .home
  | some .color => color node
  | some .jump => jump node
  | some .assignment => assignment node
  | some .repetition => repetition node
  | some .whileLoop => whileLoop node
  | some .choice => choice node
  | some .call => call node

end Effect

end Logo
