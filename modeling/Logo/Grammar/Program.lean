import Logo.Grammar.Command

/-!
# Programs

A program is one command or more, followed by procedure definitions.  `parse` reads a whole script;
`Nonterminal.rule` gives each rule of the grammar by itself, to be used on any assembly.
-/

namespace Logo

namespace Step

section Forms

variable (command : Rule) (limit : Nat)

/-- Matches `def name name* block` into a `def` node over the header and the block; the header holds
the name and a `list` of the parameters. -/
def procedure : Rule := do
  if ← keyword "def" then
    require name .noProcedureName
    let parameters ← many name limit
    combineUnder "list" parameters
    push (.leaf (.keyword "header"))
    combine 1 [3, 2]
    require (block command limit) .noProcedureBody
    combine 3 [2, 1]
    return true
  return false

/-- Matches `[lineEnd] command command* procedure*` and the end of the text, into a `program` node
over a `block` of the commands and a `list` of the procedures. -/
def program : Rule := do
  discard (lineEnd limit)
  require command .noFirstCommand
  let commands ← countMatches command 1 limit
  combineUnder "block" commands
  let procedures ← many (procedure command limit) limit
  combineUnder "list" procedures
  push (.leaf (.keyword "program"))
  combine 1 [3, 2]
  if (← get).stream.hasNext then fail .trailingInput
  return true

end Forms

end Step

/-- The nonterminals of the grammar. -/
inductive Nonterminal where
  /-- A sum of terms. -/
  | expression
  /-- A product of factors. -/
  | term
  /-- A product that cannot begin with a sign. -/
  | unsignedTerm
  /-- An operand with an optional sign. -/
  | factor
  /-- An operand. -/
  | unsignedFactor
  /-- A comparison. -/
  | condition
  /-- A comparison operator. -/
  | comparator
  /-- An operator of sums. -/
  | addOperator
  /-- An operator of products. -/
  | multiplyOperator
  /-- Commands in braces. -/
  | block
  /-- A procedure definition. -/
  | procedure
  /-- A whole script. -/
  | program
  /-- A command. -/
  | command
  /-- The word of a move. -/
  | move
  /-- A named color, or `color` with its components. -/
  | color
  /-- A jump. -/
  | jump
  /-- An assignment. -/
  | assignment
  /-- A counted loop. -/
  | repetition
  /-- A conditional loop. -/
  | whileLoop
  /-- A choice between blocks. -/
  | choice
  /-- A procedure call. -/
  | call
  /-- A name. -/
  | name
  /-- A numeric literal. -/
  | number
  /-- Line ends. -/
  | lineEnd
  deriving DecidableEq

namespace Step

/-- The rule of a nonterminal, with nesting and repetition up to a limit. -/
def ruleAt (limit : Nat) : Nonterminal → Rule
  | .expression => expressionAt limit
  | .term => term (expressionAt limit) limit
  | .unsignedTerm => unsignedTerm (expressionAt limit) limit
  | .factor => factor (expressionAt limit)
  | .unsignedFactor => unsignedFactor (expressionAt limit)
  | .condition => condition (expressionAt limit)
  | .comparator => comparator
  | .addOperator => addOperator
  | .multiplyOperator => multiplyOperator
  | .block => block (commandAt limit) limit
  | .procedure => procedure (commandAt limit) limit
  | .program => program (commandAt limit) limit
  | .command => commandAt limit
  | .move => moveWord
  | .color => color (expressionAt limit)
  | .jump => jump (expressionAt limit) limit
  | .assignment => assignment (expressionAt limit) limit
  | .repetition => repetition (expressionAt limit) (commandAt limit) limit
  | .whileLoop => whileLoop (expressionAt limit) (commandAt limit) limit
  | .choice => choice (expressionAt limit) (commandAt limit) limit
  | .call => call (expressionAt limit) limit
  | .name => name
  | .number => number
  | .lineEnd => lineEnd limit

end Step

/-- The rule of a nonterminal.  Its limit exceeds the number of tokens to come, so it is never
reached. -/
def Nonterminal.rule (n : Nonterminal) : Rule := do
  let a ← get
  Step.ruleAt a.budget n

/-- What a rule leaves on top of the stack when it is applied to a text: `none` if it does not
match, the error if it fails. -/
def readAs (n : Nonterminal) (source : String) : Except ParseError (Option (Tree Token)) :=
  match n.rule (Assembly.ofString source) with
  | .error error _ => .error error
  | .ok false _ => .ok none
  | .ok true a => .ok a.stack.head?

/-- The tree of a script. -/
def parse (source : String) : Except ParseError (Tree Token) :=
  match Nonterminal.program.rule (Assembly.ofString source) with
  | .error error _ => .error error
  | .ok _ a =>
    match a.stack with
    | t :: _ => .ok t
    | [] => .error (.grammar .noProgram a.stream.recentLine [])

end Logo
