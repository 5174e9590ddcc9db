import Logo.Grammar.Assembly

/-!
# Expressions

Expressions in layers: sums of terms, terms of factors, factors of operands with an optional sign.
Operators of one layer lean to the left, so `a - b + c` is `+(-(a b) c)`.  Only the first operand of
a sum may begin with a sign.

An operand in parentheses is again an expression.  The rules below take that inner rule as an
argument, and `expressionAt` ties the knot: each pair of parentheses takes a token, so a depth that
exceeds the number of tokens is never reached.
-/

namespace Logo

namespace Step

/-- Matches `+` or `-`. -/
def addOperator : Rule := firstOf [symbol "+", symbol "-"]

/-- Matches `*` or `/`. -/
def multiplyOperator : Rule := firstOf [symbol "*", symbol "/"]

/-- Matches `<`, `=` or `>`. -/
def comparator : Rule := firstOf [symbol "<", symbol "=", symbol ">"]

/-- Matches `(operator operand)` behind a left operand, and combines the three. -/
def link (operator operand : Rule) (fault : Fault) : Rule := do
  if ← operator then
    require operand fault
    combine 2 [3, 1]
    return true
  return false

/-- Matches `first (operator operand)*`. -/
def chain (limit : Nat) (first operator operand : Rule) (fault : Fault) : Rule := do
  if ← first then
    discard (many (link operator operand fault) limit)
    return true
  return false

section Layers

variable (inner : Rule) (limit : Nat)

/-- Matches `name | number | getX | getY | ( expression )`.  Parentheses only group: they leave no
node behind. -/
def unsignedFactor : Rule := do
  if ← firstOf [name, number, keyword "getX", keyword "getY"] then return true
  if ← skip (symbol "(") then
    require inner .emptyParentheses
    require (skip (symbol ")")) .unclosedParentheses
    return true
  return false

/-- Matches `[+|-] unsignedFactor`; a sign becomes a node with one child. -/
def factor : Rule := do
  let signed ← addOperator
  if ← unsignedFactor inner then
    if signed then combine 2 [1]
    return true
  if signed then fail .loneSign
  return false

/-- Matches `factor ((*|/) factor)*`. -/
def term : Rule := chain limit (factor inner) multiplyOperator (factor inner) .noMultiplier

/-- Matches `unsignedFactor ((*|/) unsignedFactor)*`. -/
def unsignedTerm : Rule :=
  chain limit (unsignedFactor inner) multiplyOperator (unsignedFactor inner) .noMultiplier

/-- Matches `term ((+|-) unsignedTerm)*`. -/
def sum : Rule := chain limit (term inner limit) addOperator (unsignedTerm inner limit) .noSummand

/-- Matches `expression (<|=|>) expression`. -/
def condition : Rule := do
  if ← inner then
    require comparator .noComparator
    require inner .noRightSide
    combine 2 [3, 1]
    return true
  return false

end Layers

/-- Matches an expression with parentheses nested less deeply than the limit. -/
def expressionAt : Nat → Rule
  | 0 => return false
  | limit + 1 => sum (expressionAt limit) limit

end Step

end Logo
