import Logo.Grammar.Fault
import Logo.Vocabulary

/-!
# Assembling trees

A script is read by rules that take tokens from a stream and build trees on a stack.  A rule that
matches leaves one new tree on top; a rule that does not match at all leaves everything as it was; a
rule that matches in part and then fails reports the fault together with the stack.

Trees are combined by their position on the stack, the top being position 1.
-/

namespace Logo

/-- The tokens still to be read and the trees built so far, newest first. -/
structure Assembly where
  /-- The tokens. -/
  stream : TokenStream
  /-- The trees. -/
  stack : List (Tree Token)
  deriving DecidableEq

/-- The assembly before the first token of a script. -/
def Assembly.ofString (source : String) : Assembly :=
  ⟨TokenStream.ofString Vocabulary.keywords source, []⟩

/-- More than the number of tokens still to be read, so also more than the number of steps that any
rule can take. -/
def Assembly.budget (a : Assembly) : Nat := a.stream.pending + 1

/-- A step of an assembly that answers something or fails; what it did to the assembly stays. -/
abbrev Step (α : Type) : Type := EStateM ParseError Assembly α

/-- A step that tells whether it matched. -/
abbrev Rule : Type := Step Bool

namespace Step

/-! ## Single tokens -/

/-- Fails at the line of the token read last. -/
def fail {α : Type} (fault : Fault) : Step α := do
  let a ← get
  throw (.grammar fault a.stream.recentLine a.stack.reverse)

/-- Takes back the token read last. -/
def pushBack : Step Unit := do
  let a ← get
  match a.stream.pushBack with
  | .ok stream => set { a with stream }
  | .error error => throw (.stream error)

/-- Puts a tree on top of the stack. -/
def push (t : Tree Token) : Step Unit := modify fun a => { a with stack := t :: a.stack }

/-- Takes the tree off the top of the stack, if there is one. -/
def pop : Step (Option (Tree Token)) := do
  let a ← get
  set { a with stack := a.stack.tail }
  return a.stack.head?

/-- Matches a token of the given kind and, if one is given, text; it becomes a leaf on the stack.  A
malformed literal fails whatever was wanted. -/
def accept (kind : TokenKind) (text? : Option String) : Rule := do
  let a ← get
  match a.stream.next? with
  | none => return false
  | some (t, stream) =>
    set { a with stream }
    if t.kind = .malformed then throw (.literal t.text stream.recentLine)
    if t.kind = kind ∧ text?.all (· = t.text) then
      push (.leaf t)
      return true
    pushBack
    return false

/-- Matches a keyword. -/
def keyword (word : String) : Rule := accept .keyword (some word)

/-- Matches a symbol. -/
def symbol (text : String) : Rule := accept .symbol (some text)

/-- Matches a name. -/
def name : Rule := accept .name none

/-- Matches a numeric literal. -/
def number : Rule := accept .number none

/-! ## Combining rules -/

/-- Matches the first of several rules that matches. -/
def firstOf : List Rule → Rule
  | [] => pure false
  | rule :: rules => do
    if ← rule then return true
    firstOf rules

/-- Matches a rule or fails. -/
def require (rule : Rule) (fault : Fault) : Step Unit := do
  unless ← rule do
    fail fault

/-- Matches a rule and drops the tree that it leaves. -/
def skip (rule : Rule) : Rule := do
  if ← rule then
    discard pop
    return true
  return false

/-- Matches a rule as often as it matches, up to a limit; answers `count` plus the number of
matches. -/
def countMatches (rule : Rule) (count : Nat) : Nat → Step Nat
  | 0 => return count
  | limit + 1 => do
    if ← rule then countMatches rule (count + 1) limit
    else return count

/-- Matches a rule as often as it matches, up to a limit; answers the number of matches. -/
def many (rule : Rule) (limit : Nat) : Step Nat := countMatches rule 0 limit

/-! ## Combining trees -/

/-- The entry at a position and the entries without it; a position that is out of range or has been
taken before has none. -/
def takeEntry? (entries : Array (Option (Tree Token))) (position : Nat) :
    Option (Tree Token × Array (Option (Tree Token))) :=
  match position with
  | 0 => none
  | index + 1 =>
    match entries[index]? with
    | some (some t) => some (t, entries.setIfInBounds index none)
    | _ => none

/-- The entries at several positions, or the first position without one. -/
def takeEntries (entries : Array (Option (Tree Token))) :
    List Nat → Except Nat (List (Tree Token))
  | [] => .ok []
  | position :: positions =>
    match takeEntry? entries position with
    | none => .error position
    | some (t, entries) => do
      let ts ← takeEntries entries positions
      return t :: ts

/-- Replaces the top entries, one for the root and one for each child, by one tree: the entry at
position `root`, with the entries at the positions `children` added below it in that order.  The
entries are off the stack before any of them is looked for. -/
def combine (root : Nat) (children : List Nat) : Step Unit := do
  let a ← get
  let count := children.length + 1
  let top := a.stack.take count
  if top.length < count then fail (.tooFewTrees count a.stack.length)
  set { a with stack := a.stack.drop count }
  match takeEntry? (top.map some).toArray root with
  | none => fail (.noRootAt root)
  | some (t, entries) =>
    match takeEntries entries children with
    | .error position => fail (.noChildAt position)
    | .ok ts => push (t.addChildren ts)

/-- Puts a keyword node on the stack with the `count` entries below it as its children, oldest
first. -/
def combineUnder (word : String) (count : Nat) : Step Unit := do
  push (.leaf (.keyword word))
  combine 1 ((List.range count).map (· + 2)).reverse

end Step

end Logo
