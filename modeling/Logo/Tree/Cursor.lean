import Logo.Tree.Basic

/-!
# Cursors over children

A cursor moves along the children of one node, from first to last, and can remove the child that it
yielded last.  The children behind a removed one move up, and the cursor stays in front of them.
-/

namespace Logo

/-- A place among the children of a node. -/
structure ChildCursor (α : Type) where
  /-- The children of the node as they are now. -/
  children : List (Tree α)
  /-- The index of the child to be yielded next. -/
  next : Nat
  /-- The index of the child yielded last, unless it has been removed. -/
  current : Option (Fin children.length)

namespace ChildCursor

variable {α : Type}

/-- The place before the first child. -/
def ofChildren (children : List (Tree α)) : ChildCursor α := ⟨children, 0, none⟩

/-- Moves to the next child and yields it.  Behind the last child nothing changes. -/
def advance (c : ChildCursor α) : Option (Tree α) × ChildCursor α :=
  if h : c.next < c.children.length then
    (some c.children[c.next], ⟨c.children, c.next + 1, some ⟨c.next, h⟩⟩)
  else (none, c)

/-- Removes the child yielded last and yields it again; there is none before the first move and right
after a removal. -/
def remove (c : ChildCursor α) : Except TreeError (Tree α × ChildCursor α) :=
  match c.current with
  | none => .error (.noChild c.next c.children.length)
  | some index => .ok (c.children[index], ⟨c.children.eraseIdx index, index, none⟩)

/-- Moving along changes no child. -/
theorem children_advance (c : ChildCursor α) : c.advance.2.children = c.children := by
  unfold advance
  split <;> rfl

end ChildCursor

end Logo
