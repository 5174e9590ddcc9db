import Logo.Tree.Basic

/-!
# Tree descriptions

The one-line text of a tree: `value(child child)`.  Parentheses and spaces separate values and are
never part of one, so a description is read piece by piece.  The reader keeps the nodes whose
closing parenthesis is still to come, innermost first.
-/

namespace Logo

namespace Tree

/-! ## Writing -/

mutual

/-- The description of a tree with further characters behind it. -/
def describeThen : Tree String → List Char → List Char
  | .node value [], rest => value.toList ++ rest
  | .node value (c :: cs), rest =>
    value.toList ++ '(' :: describeThen c (describeMoreThen cs (')' :: rest))

/-- The descriptions of further children, each behind a space, with further characters behind them.
-/
def describeMoreThen : List (Tree String) → List Char → List Char
  | [], rest => rest
  | c :: cs, rest => ' ' :: describeThen c (describeMoreThen cs rest)

end

/-- The description of a tree. -/
def describe (t : Tree String) : String := String.ofList (describeThen t [])

/-! ## Reading -/

/-- A piece of a description. -/
inductive Piece where
  /-- An opening parenthesis. -/
  | opening
  /-- A closing parenthesis. -/
  | closing
  /-- A run of other characters. -/
  | word (text : String)
  deriving DecidableEq

/-- The text of a piece. -/
def Piece.text : Piece → String
  | .opening => "("
  | .closing => ")"
  | .word text => text

/-- The piece of a run of characters given backwards, if the run is not empty. -/
def Piece.ofRun (run : List Char) : List Piece :=
  if run = [] then [] else [.word (String.ofList run.reverse)]

/-- Cuts a text into pieces; `run` holds the characters of the current word, last first. -/
def piecesFrom (run : List Char) : List Char → List Piece
  | [] => Piece.ofRun run
  | ' ' :: rest => Piece.ofRun run ++ piecesFrom [] rest
  | '(' :: rest => Piece.ofRun run ++ .opening :: piecesFrom [] rest
  | ')' :: rest => Piece.ofRun run ++ .closing :: piecesFrom [] rest
  | c :: rest => piecesFrom (c :: run) rest

/-- The pieces of a description: its parentheses and the words between them. -/
def pieces (description : String) : List Piece := piecesFrom [] description.toList

/-- A node whose children are being read. -/
structure OpenNode where
  /-- The value of the node. -/
  value : String
  /-- The children read so far, last first. -/
  done : List (Tree String)

/-- The node with the children read so far. -/
def OpenNode.close (n : OpenNode) : Tree String := .node n.value n.done.reverse

/-- The node with one more child. -/
def OpenNode.push (n : OpenNode) (c : Tree String) : OpenNode := { n with done := c :: n.done }

/-- Reads the rest of a description below the given open nodes.  With a finished tree at hand the
reader attaches it; without one it reads a value first. -/
def readPieces (above : List OpenNode) (finished : Option (Tree String)) (rest : List Piece) :
    Except TreeError (Tree String) :=
  match finished, above, rest with
  | none, _, .word v :: .opening :: .closing :: rest => readPieces above (some (leaf v)) rest
  | none, _, [.word v, .opening] => .error (.unclosed v)
  | none, _, .word v :: .opening :: rest => readPieces (⟨v, []⟩ :: above) none rest
  | none, _, .word v :: rest => readPieces above (some (leaf v)) rest
  | none, _, _ => .error .expectedValue
  | some t, [], [] => .ok t
  | some _, [], p :: _ => .error (.leftover p.text)
  | some _, n :: _, [] => .error (.unclosed n.value)
  | some t, n :: above, .closing :: rest => readPieces above (some (n.push t).close) rest
  | some t, n :: above, rest => readPieces (n.push t :: above) none rest
termination_by 2 * rest.length + (if finished.isSome then 1 else 0)

/-- Reads the description of a tree. -/
def ofDescription (description : String) : Except TreeError (Tree String) :=
  readPieces [] none (pieces description)

end Tree

end Logo
