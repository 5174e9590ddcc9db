import Logo.Token.Stream
import Logo.Tree.Description

/-!
# Faults of a script

The ways in which a text can fail to be a script, each a constructor of its own, and their wording.
-/

namespace Logo

/-- What is wrong where the text leaves the grammar. -/
inductive Fault where
  /-- No operand follows `+` or `-`. -/
  | noSummand
  /-- No operand follows `*` or `/`. -/
  | noMultiplier
  /-- A sign stands before something else than an operand. -/
  | loneSign
  /-- No expression follows an opening parenthesis. -/
  | emptyParentheses
  /-- No closing parenthesis follows the expression. -/
  | unclosedParentheses
  /-- No comparator follows the left side of a condition. -/
  | noComparator
  /-- No right side follows the comparator of a condition. -/
  | noRightSide
  /-- The line goes on behind an opening brace. -/
  | noLineEndAfterOpening
  /-- Something else than a command or a closing brace stands in a block. -/
  | unclosedBlock
  /-- The line goes on behind a closing brace. -/
  | noLineEndAfterClosing
  /-- No name follows `def`. -/
  | noProcedureName
  /-- No block follows the header of a procedure. -/
  | noProcedureBody
  /-- No expression follows a move. -/
  | noDistance
  /-- The line goes on behind a move. -/
  | noLineEndAfterMove
  /-- The line goes on behind a color. -/
  | noLineEndAfterColor
  /-- A component of `color` is missing. -/
  | noComponent (index : Fin 3)
  /-- The line goes on behind a command without operands. -/
  | noLineEndAfter (word : String)
  /-- The first coordinate of `jump` is missing. -/
  | noJumpX
  /-- The second coordinate of `jump` is missing. -/
  | noJumpY
  /-- The line goes on behind `jump`. -/
  | noLineEndAfterJump
  /-- No name follows `set`. -/
  | noTarget
  /-- No expression follows the name behind `set`. -/
  | noAssignedValue
  /-- The line goes on behind `set`. -/
  | noLineEndAfterSet
  /-- No expression follows `repeat`. -/
  | noCount
  /-- No block follows the count of `repeat`. -/
  | noRepeatBody
  /-- No condition follows `while`. -/
  | noWhileCondition
  /-- No block follows the condition of `while`. -/
  | noWhileBody
  /-- No condition follows `if`. -/
  | noIfCondition
  /-- No block follows the condition of `if`. -/
  | noThenBlock
  /-- No block follows `else`. -/
  | noElseBlock
  /-- No name follows `do`. -/
  | noCallee
  /-- The line goes on behind the arguments of `do`. -/
  | noLineEndAfterCall
  /-- A program does not begin with a command. -/
  | noFirstCommand
  /-- A program goes on behind its procedures. -/
  | trailingInput
  /-- A program was read but its tree is not on the stack. -/
  | noProgram
  /-- More trees were to be combined than there are. -/
  | tooFewTrees (count height : Nat)
  /-- The tree to be the root is not among those combined. -/
  | noRootAt (position : Nat)
  /-- A tree to be a child is not among those combined, or has been taken. -/
  | noChildAt (position : Nat)
  deriving DecidableEq

namespace Fault

/-- The word for a place among three. -/
def ordinal (index : Fin 3) : String :=
  match index with
  | 0 => "first"
  | 1 => "second"
  | 2 => "third"

/-- The wording of a fault. -/
def message : Fault → String
  | .noSummand => "Error in expression after '+' or '-'"
  | .noMultiplier => "No term after '*' or '/'"
  | .loneSign => "Unary sign not followed by a factor"
  | .emptyParentheses => "Error in parenthesized expression"
  | .unclosedParentheses => "Unclosed parenthetical expression"
  | .noComparator => "No <comparator> following <expression>"
  | .noRightSide => "No <expression> following <expression> - <comparator>"
  | .noLineEndAfterOpening => "No <eol> after the opening bracket"
  | .unclosedBlock => "Unclosed bracketed command"
  | .noLineEndAfterClosing => "No <eol> after the closing bracket"
  | .noProcedureName => "No <name> after 'def'"
  | .noProcedureBody => "No <block> at the end of <procedure>"
  | .noDistance => "No <expression> following <move>"
  | .noLineEndAfterMove => "No <eol> following <move> - <expression>"
  | .noLineEndAfterColor => "No <eol> following <color>"
  | .noComponent index => s!"No {ordinal index} <expression> following 'color'"
  | .noLineEndAfter word => s!"No <eol> following '{word}'"
  | .noJumpX => "No first <expression> following 'jump'"
  | .noJumpY => "No second <expression> following 'jump'"
  | .noLineEndAfterJump => "No <eol> at the end of jump sequence"
  | .noTarget => "No <variable> following 'set'"
  | .noAssignedValue => "No <expression> following 'set' - <variable>"
  | .noLineEndAfterSet => "No <eol> at the end of set sequence"
  | .noCount => "No <expression> following 'repeat'"
  | .noRepeatBody => "No <block> at the end of repeat sequence"
  | .noWhileCondition => "No <condition> following 'while'"
  | .noWhileBody => "No <block> at the end of while sequence"
  | .noIfCondition => "No <condition> following 'if'"
  | .noThenBlock => "No <block> following 'if'-<condition>"
  | .noElseBlock => "No <block> following 'else'"
  | .noCallee => "No <name> following 'do'"
  | .noLineEndAfterCall => "No <eol> at the end of do sequence"
  | .noFirstCommand => "No <command> at the beginning of <program>"
  | .trailingInput => "No <command> or <procedure> at the end of <program>"
  | .noProgram => "No <program> on the stack after parsing"
  | .tooFewTrees count height => s!"Cannot combine {count} trees from a stack of {height}"
  | .noRootAt position => s!"Stack position {position} is not available as a root"
  | .noChildAt position => s!"Stack position {position} is not available as a child"

end Fault

/-- The description of a tree of tokens, by the texts of its tokens. -/
def Tree.describeTokens (t : Tree Token) : String := (t.map Token.text).describe

/-- Why a text could not be read as a script. -/
inductive ParseError where
  /-- The text leaves the grammar on the given line; the trees built so far are kept, oldest
  first. -/
  | grammar (fault : Fault) (line : Nat) (trees : List (Tree Token))
  /-- A numeric literal is malformed. -/
  | literal (text : String) (line : Nat)
  /-- The tokens were asked for in a way they cannot be had. -/
  | stream (error : StreamError)
  deriving DecidableEq

namespace ParseError

/-- The wording of an error. -/
def message : ParseError → String
  | .grammar fault line trees =>
    let stack := String.intercalate ", " (trees.map Tree.describeTokens)
    s!"Error on line {line}: {fault.message}; stack = [{stack}]"
  | .literal text line => s!"Error on line {line}: Malformed number literal '{text}'."
  | .stream error => error.message

/-- The line an error refers to, if it refers to one. -/
def line? : ParseError → Option Nat
  | .grammar _ line _ => some line
  | .literal _ line => some line
  | .stream error => error.line?

end ParseError

end Logo
