import Logo.Machine.Error
import Logo.Tree.Basic
import Logo.Token

/-!
# Nodes

A script runs as a tree of tokens.  What a node means depends on the text of its token and on how
many children it has; any tree can be run, and a shape that means nothing is an error when it is
reached.
-/

namespace Logo

/-- A node of a script. -/
abbrev Node : Type := Tree Token

/-- The operations of arithmetic. -/
inductive Operation where
  /-- Addition. -/
  | add
  /-- Subtraction. -/
  | sub
  /-- Multiplication. -/
  | mul
  /-- Division, by zero too: that gives an infinity or no number. -/
  | div
  deriving DecidableEq

namespace Operation

/-- The operation of sums that a text denotes. -/
def additive? (text : String) : Option Operation :=
  if text = "+" then some .add else if text = "-" then some .sub else none

/-- The operation of products that a text denotes. -/
def multiplicative? (text : String) : Option Operation :=
  if text = "*" then some .mul else if text = "/" then some .div else none

/-- Carries out an operation. -/
def apply : Operation → Float → Float → Float
  | .add, a, b => a + b
  | .sub, a, b => a - b
  | .mul, a, b => a * b
  | .div, a, b => a / b

end Operation

namespace Node

/-- The text of a node. -/
def text (node : Node) : String := node.value.text

/-- The kind of a node. -/
def kind (node : Node) : TokenKind := node.value.kind

/-- The error that a node has not the children it must have. -/
def malformed (node : Node) (expected : String) : RuntimeError :=
  .malformedNode node.text expected node.childCount

/-- The children of a node that must have the given number of them. -/
def expect (node : Node) (count : Nat) : Fallible (List Node) :=
  if node.childCount = count then .ok node.children
  else .error (node.malformed (toString count))

/-- Checks that a node has no children. -/
def expectNone (node : Node) : Fallible Unit :=
  match node.children with
  | [] => .ok ()
  | _ => .error (node.malformed "0")

/-- The child of a node that must have one. -/
def expectOne (node : Node) : Fallible Node :=
  match node.children with
  | [a] => .ok a
  | _ => .error (node.malformed "1")

/-- The children of a node that must have two. -/
def expectTwo (node : Node) : Fallible (Node × Node) :=
  match node.children with
  | [a, b] => .ok (a, b)
  | _ => .error (node.malformed "2")

/-- The children of a node that must have three. -/
def expectThree (node : Node) : Fallible (Node × Node × Node) :=
  match node.children with
  | [a, b, c] => .ok (a, b, c)
  | _ => .error (node.malformed "3")

/-- Whether the text of a node denotes a sum, whatever its shape. -/
def isAdditive (node : Node) : Bool := (Operation.additive? node.text).isSome

/-- Whether the text of a node denotes a product, whatever its shape. -/
def isMultiplicative (node : Node) : Bool := (Operation.multiplicative? node.text).isSome

/-- Whether a node is an operation between two operands, of those that the texts denote. -/
def isBinary (operation? : String → Option Operation) (node : Node) : Bool :=
  node.childCount = 2 && (operation? node.text).isSome

/-- Whether a node is a sum of two operands. -/
def isSum (node : Node) : Bool := node.isBinary Operation.additive?

/-- Whether a node is a product of two operands. -/
def isProduct (node : Node) : Bool := node.isBinary Operation.multiplicative?

/-- Whether a node is a sign before an operand. -/
def isSign (node : Node) : Bool := node.childCount = 1 && node.isAdditive

end Node

end Logo
