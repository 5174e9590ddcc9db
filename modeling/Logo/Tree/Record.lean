import Logo.Text.Quoted
import Logo.Tree.Basic

/-!
# Tree records

The text of a tree that names the parts of every node and quotes its value, so that values with
spaces and parentheses in them stay readable.
-/

namespace Logo

namespace Tree

mutual

/-- The record of a tree. -/
def record : Tree String → String
  | .node value children =>
    "Tree \x7b value: " ++ Text.quoted value ++ ", children: [" ++ recordList children ++ "] \x7d"

/-- The records of trees in a row, between commas. -/
def recordList : List (Tree String) → String
  | [] => ""
  | t :: ts => record t ++ recordMore ts

/-- The records of further trees, each behind a comma. -/
def recordMore : List (Tree String) → String
  | [] => ""
  | t :: ts => ", " ++ record t ++ recordMore ts

end

end Tree

end Logo
