import Logo.Number.Shortest

/-!
# Runtime errors

The ways in which running a script can fail, and their wording.
-/

namespace Logo

/-- Why a run failed. -/
inductive RuntimeError where
  /-- A name was read that no visible frame defines. -/
  | undefinedVariable (name : String)
  /-- A procedure was called that the script does not define. -/
  | undefinedProcedure (name : String)
  /-- A procedure was called with the wrong number of arguments. -/
  | arityMismatch (name : String) (expected found : Nat)
  /-- A procedure was called when the given number of calls were active already. -/
  | recursionLimit (name : String) (depth : Nat)
  /-- A component of a color is not between 0 and 255. -/
  | colorRange (value : Float)
  /-- The count of a loop is an infinity or no number. -/
  | countNotFinite (value : Float)
  /-- The count of a loop is too large. -/
  | countOutOfRange (value : Float)
  /-- The count of a loop has a fraction. -/
  | countNotWhole (value : Float)
  /-- The target of an assignment is not a name. -/
  | notAssignable (text : String)
  /-- A numeric literal denotes no number. -/
  | unreadableNumber (text : String)
  /-- A node has no meaning where it stands. -/
  | unsupported (operation : String)
  /-- A node has the wrong number of children. -/
  | malformedNode (command expected : String) (found : Nat)

namespace RuntimeError

/-- The wording of an error. -/
def message : RuntimeError → String
  | .undefinedVariable name => s!"Unknown variable '{name}'."
  | .undefinedProcedure name => s!"Unknown procedure '{name}'."
  | .arityMismatch name expected found =>
    s!"Procedure '{name}' takes {expected} argument(s) but {found} were given."
  | .recursionLimit name depth =>
    s!"Procedure '{name}' exceeded the maximum call depth of {depth}."
  | .colorRange value =>
    s!"Color component {shortestText value} is outside of the range 0 to 255, inclusive."
  | .countNotFinite value => s!"Type error: repeat count {shortestText value} is not finite."
  | .countOutOfRange value => s!"Type error: repeat count {shortestText value} is out of range."
  | .countNotWhole value =>
    s!"Type error: repeat count {shortestText value} must evaluate to an integer."
  | .notAssignable text => s!"Type error: cannot assign to '{text}'."
  | .unreadableNumber text => s!"Type error: '{text}' is not a readable number."
  | .unsupported operation => s!"Unsupported operation '{operation}'."
  | .malformedNode command expected found =>
    s!"A '{command}' node must have {expected} children but has {found}."

end RuntimeError

/-- The result of something that may fail at run time. -/
abbrev Fallible (α : Type) : Type := Except RuntimeError α

end Logo
