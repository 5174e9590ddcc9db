import Logo.Tree.Basic

/-!
# Tree outlines

The text of a tree with one line for each node in pre-order, indented two spaces for each level.
-/

namespace Logo

namespace Tree

/-- The widest indent that an outline can have. -/
def maxIndent : Nat := 65535

/-- The indent of the lines at a depth, or `none` if it is too wide. -/
def indent? (depth : Nat) : Option Nat := if 2 * depth ≤ maxIndent then some (2 * depth) else none

/-- One line of an outline. -/
def outlineLine (indent : Nat) (value : String) : String :=
  String.ofList (List.replicate indent ' ') ++ value ++ "\n"

mutual

/-- The lines of a tree whose root is at the given depth. -/
def outlineFrom? (depth : Nat) : Tree String → Option (List String)
  | .node value children => do
    let indent ← indent? depth
    let below ← outlineListFrom? (depth + 1) children
    return outlineLine indent value :: below

/-- The lines of trees in a row. -/
def outlineListFrom? (depth : Nat) : List (Tree String) → Option (List String)
  | [] => some []
  | t :: ts => do
    let lines ← outlineFrom? depth t
    let more ← outlineListFrom? depth ts
    return lines ++ more

end

/-- The outline of a tree; `none` if the tree is too deep to be indented. -/
def outline? (t : Tree String) : Option String := (outlineFrom? 0 t).map String.join

end Tree

end Logo
