import Logo.Grammar.Expression

/-!
# Commands

One rule for each form of command.  A command begins with a word of its own, so the first rule whose
word matches must match completely.  Commands end their line; blocks of commands stand in braces,
each of which ends its line too.

Like parentheses, blocks nest: the rules take the rule of the commands inside as an argument and
`commandAt` ties the knot.
-/

namespace Logo

namespace Step

section Forms

variable (expression command : Rule) (limit : Nat)

/-- Matches one or more line ends, which leave no node behind. -/
def lineEnd : Rule := do
  if ← skip (accept .eol none) then
    discard (many (skip (accept .eol none)) limit)
    return true
  return false

/-- Matches `{ lineEnd command* } lineEnd` into a `block` node over the commands. -/
def block : Rule := do
  if ← skip (symbol "\x7b") then
    require (lineEnd limit) .noLineEndAfterOpening
    let commands ← many command limit
    require (skip (symbol "\x7d")) .unclosedBlock
    require (lineEnd limit) .noLineEndAfterClosing
    combineUnder "block" commands
    return true
  return false

/-- Matches the word of a move. -/
def moveWord : Rule := firstOf [keyword "forward", keyword "right", keyword "left", keyword "face"]

/-- Matches a move with its operand. -/
def move : Rule := do
  if ← moveWord then
    require expression .noDistance
    combine 2 [1]
    require (lineEnd limit) .noLineEndAfterMove
    return true
  return false

/-- Matches the name of a color, which stands for a `color` node over its components. -/
def namedColor : List (String × Rgb) → Rule
  | [] => return false
  | (word, rgb) :: colors => do
    if ← skip (keyword word) then
      push (.node (.keyword "color")
        (rgb.components.map fun c => .leaf (.number (toString c.toNat))))
      return true
    namedColor colors

/-- Matches a named color, or `color` with three components. -/
def color : Rule := do
  if ← namedColor Rgb.named then return true
  if ← keyword "color" then
    require expression (.noComponent 0)
    require expression (.noComponent 1)
    require expression (.noComponent 2)
    combine 4 [3, 2, 1]
    return true
  return false

/-- Matches a color on a line. -/
def colorLine : Rule := do
  if ← color expression then
    require (lineEnd limit) .noLineEndAfterColor
    return true
  return false

/-- Matches a word that is a command by itself. -/
def bareCommand (word : String) : Rule := do
  if ← keyword word then
    require (lineEnd limit) (.noLineEndAfter word)
    return true
  return false

/-- Matches `jump expression expression`. -/
def jump : Rule := do
  if ← keyword "jump" then
    require expression .noJumpX
    require expression .noJumpY
    combine 3 [2, 1]
    require (lineEnd limit) .noLineEndAfterJump
    return true
  return false

/-- Matches `set name expression`. -/
def assignment : Rule := do
  if ← keyword "set" then
    require name .noTarget
    require expression .noAssignedValue
    combine 3 [2, 1]
    require (lineEnd limit) .noLineEndAfterSet
    return true
  return false

/-- Matches `repeat expression block`. -/
def repetition : Rule := do
  if ← keyword "repeat" then
    require expression .noCount
    require (block command limit) .noRepeatBody
    combine 3 [2, 1]
    return true
  return false

/-- Matches `while condition block`. -/
def whileLoop : Rule := do
  if ← keyword "while" then
    require (condition expression) .noWhileCondition
    require (block command limit) .noWhileBody
    combine 3 [2, 1]
    return true
  return false

/-- Matches `if condition block [else block]`; the word `else` leaves no node behind. -/
def choice : Rule := do
  if ← keyword "if" then
    require (condition expression) .noIfCondition
    require (block command limit) .noThenBlock
    if ← skip (keyword "else") then
      require (block command limit) .noElseBlock
      combine 4 [3, 2, 1]
    else combine 3 [2, 1]
    return true
  return false

/-- Matches `do name expression*` into a node over the name and a `list` of the arguments. -/
def call : Rule := do
  if ← keyword "do" then
    require name .noCallee
    let arguments ← many expression limit
    combineUnder "list" arguments
    combine 3 [2, 1]
    require (lineEnd limit) .noLineEndAfterCall
    return true
  return false

/-- Matches a command of any form. -/
def anyCommand : Rule :=
  firstOf
    [move expression limit, colorLine expression limit, bareCommand limit "penup",
      bareCommand limit "pendown", bareCommand limit "home", jump expression limit,
      assignment expression limit, repetition expression command limit,
      whileLoop expression command limit, choice expression command limit, call expression limit]

end Forms

/-- Matches a command with blocks nested less deeply than the limit. -/
def commandAt : Nat → Rule
  | 0 => return false
  | limit + 1 => anyCommand (expressionAt limit) (commandAt limit) limit

end Step

end Logo
