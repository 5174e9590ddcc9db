/-!
# Ordered trees

Trees with a value and a list of children at every node.  A program is such a tree of tokens.  A
tree owns its subtrees: adding a child copies nothing and shares nothing, so no tree can contain
itself.
-/

namespace Logo

/-- An ordered tree. -/
inductive Tree (α : Type) where
  /-- A value over its children, first child first. -/
  | node (value : α) (children : List (Tree α))

/-- The ways in which an operation on trees can fail. -/
inductive TreeError where
  /-- A child was to be inserted past the end of the children. -/
  | insertion (index count : Nat)
  /-- A description has something else where a value must stand. -/
  | expectedValue
  /-- A description ends before the children of a node do. -/
  | unclosed (value : String)
  /-- A description goes on behind its tree. -/
  | leftover (piece : String)
  /-- There is no child at the index. -/
  | noChild (index count : Nat)
  deriving DecidableEq

namespace TreeError

/-- The wording of an error. -/
def message : TreeError → String
  | .insertion index count =>
    s!"Invalid argument: cannot insert a child at index {index} of a node with {count} children."
  | .expectedValue => "Invalid argument: expected a value in tree description."
  | .unclosed value => s!"Invalid argument: unclosed children of '{value}' in tree description."
  | .leftover piece => s!"Invalid argument: leftover text '{piece}' in tree description."
  | .noChild index count => s!"No child at index {index}; the node has {count} children."

end TreeError

namespace Tree

variable {α β : Type}

/-- A node without children. -/
def leaf (value : α) : Tree α := .node value []

instance [Inhabited α] : Inhabited (Tree α) := ⟨leaf default⟩

/-- The value at the root. -/
def value : Tree α → α
  | .node value _ => value

/-- The children of the root, in order. -/
def children : Tree α → List (Tree α)
  | .node _ children => children

mutual

/-- Trees are equal when their values are and their children are, pairwise and in order. -/
def decEq [DecidableEq α] : (s t : Tree α) → Decidable (s = t)
  | .node v cs, .node w ds =>
    if value : v = w then
      match decEqList cs ds with
      | isTrue children => isTrue (by rw [value, children])
      | isFalse differ => isFalse (by simp [differ])
    else isFalse (by simp [value])

/-- `decEq` for trees in a row. -/
def decEqList [DecidableEq α] : (ss ts : List (Tree α)) → Decidable (ss = ts)
  | [], [] => isTrue rfl
  | [], _ :: _ => isFalse (by simp)
  | _ :: _, [] => isFalse (by simp)
  | s :: ss, t :: ts =>
    match decEq s t with
    | isTrue first =>
      match decEqList ss ts with
      | isTrue rest => isTrue (by rw [first, rest])
      | isFalse differ => isFalse (by simp [differ])
    | isFalse differ => isFalse (by simp [differ])

end

instance [DecidableEq α] : DecidableEq (Tree α) := decEq

@[simp] theorem value_node (value : α) (children : List (Tree α)) :
    (Tree.node value children).value = value := rfl

@[simp] theorem children_node (value : α) (children : List (Tree α)) :
    (Tree.node value children).children = children := rfl

/-- The number of children of the root. -/
def childCount (t : Tree α) : Nat := t.children.length

/-- Whether the root has no children. -/
def isLeaf (t : Tree α) : Bool := t.children.isEmpty

/-! ## Looking at children -/

/-- The child at an index. -/
def child (t : Tree α) (index : Nat) : Except TreeError (Tree α) :=
  match t.children[index]? with
  | some c => .ok c
  | none => .error (.noChild index t.childCount)

/-- The first child, if any. -/
def firstChild? (t : Tree α) : Option (Tree α) := t.children.head?

/-- The last child, if any. -/
def lastChild? (t : Tree α) : Option (Tree α) := t.children.getLast?

/-! ## Changing the root and its children -/

/-- Another value at the root. -/
def withValue (t : Tree α) (value : α) : Tree α := .node value t.children

/-- Other children below the root. -/
def withChildren (t : Tree α) (children : List (Tree α)) : Tree α := .node t.value children

/-- More children behind the ones there are. -/
def addChildren (t : Tree α) (more : List (Tree α)) : Tree α := t.withChildren (t.children ++ more)

/-- One more child behind the ones there are. -/
def addChild (t c : Tree α) : Tree α := t.addChildren [c]

/-- A child inserted so that it ends up at the index, which may be the number of children. -/
def insertChild (t : Tree α) (index : Nat) (c : Tree α) : Except TreeError (Tree α) :=
  if index ≤ t.childCount then .ok (t.withChildren (t.children.insertIdx index c))
  else .error (.insertion index t.childCount)

/-- The child at an index and the tree without it. -/
def removeChild (t : Tree α) (index : Nat) : Except TreeError (Tree α × Tree α) :=
  match t.children[index]? with
  | some c => .ok (c, t.withChildren (t.children.eraseIdx index))
  | none => .error (.noChild index t.childCount)

/-- Changes the subtree that a path of child indices leads to.  The change also answers something.
-/
def updateAt (change : Tree α → Except TreeError (β × Tree α)) :
    List Nat → Tree α → Except TreeError (β × Tree α)
  | [], t => change t
  | index :: path, t => do
    let c ← t.child index
    let (answer, changed) ← updateAt change path c
    return (answer, t.withChildren (t.children.set index changed))

/-! ## Changing every value -/

mutual

/-- The tree of the same shape with changed values.  The function is given the nodes in pre-order
and hands a state from each to the next. -/
def mapAccum {σ : Type} (f : σ → α → σ × β) (s : σ) : Tree α → σ × Tree β
  | .node value children =>
    let (s, value) := f s value
    let (s, children) := mapAccumList f s children
    (s, .node value children)

/-- `mapAccum` for trees in a row. -/
def mapAccumList {σ : Type} (f : σ → α → σ × β) (s : σ) : List (Tree α) → σ × List (Tree β)
  | [] => (s, [])
  | t :: ts =>
    let (s, t) := mapAccum f s t
    let (s, ts) := mapAccumList f s ts
    (s, t :: ts)

end

mutual

/-- The tree of the same shape with the function applied to every value. -/
def map (f : α → β) : Tree α → Tree β
  | .node value children => .node (f value) (mapList f children)

/-- `map` for trees in a row. -/
def mapList (f : α → β) : List (Tree α) → List (Tree β)
  | [] => []
  | t :: ts => map f t :: mapList f ts

end

@[simp] theorem value_map (f : α → β) (t : Tree α) : (t.map f).value = f t.value := by
  cases t; rfl

theorem mapList_eq_map (f : α → β) (ts : List (Tree α)) : mapList f ts = ts.map (map f) := by
  induction ts with
  | nil => rfl
  | cons t ts ih => simp [mapList, ih]

@[simp] theorem children_map (f : α → β) (t : Tree α) :
    (t.map f).children = t.children.map (map f) := by
  cases t; exact mapList_eq_map f _

mutual

/-- The values of a tree in pre-order, with further values behind them. -/
def valuesThen : Tree α → List α → List α
  | .node value children, rest => value :: valuesListThen children rest

/-- `valuesThen` for trees in a row. -/
def valuesListThen : List (Tree α) → List α → List α
  | [], rest => rest
  | t :: ts, rest => valuesThen t (valuesListThen ts rest)

end

/-- The values of a tree in pre-order. -/
def values (t : Tree α) : List α := valuesThen t []

mutual

/-- Further values come behind those of the tree. -/
theorem valuesThen_eq_append (t : Tree α) (rest : List α) :
    valuesThen t rest = valuesThen t [] ++ rest := by
  cases t with
  | node value children =>
    rw [valuesThen, valuesThen, valuesListThen_eq_append children rest,
      valuesListThen_eq_append children [], List.append_nil, List.cons_append]

/-- Further values come behind those of the trees in a row. -/
theorem valuesListThen_eq_append (ts : List (Tree α)) (rest : List α) :
    valuesListThen ts rest = ts.flatMap values ++ rest := by
  cases ts with
  | nil => rfl
  | cons t ts =>
    rw [valuesListThen, valuesThen_eq_append t, valuesListThen_eq_append ts rest,
      List.flatMap_cons, List.append_assoc, values]

end

/-- The values of a tree are that of the root and those of the children. -/
theorem values_node (value : α) (children : List (Tree α)) :
    (node value children).values = value :: children.flatMap values := by
  rw [values, valuesThen, valuesListThen_eq_append, List.append_nil]

/-- All values of a tree have a property if that of the root and those of the children do. -/
theorem forall_mem_values_node {P : α → Prop} (value : α) (children : List (Tree α)) :
    (∀ v ∈ (node value children).values, P v) ↔
      P value ∧ ∀ c ∈ children, ∀ v ∈ c.values, P v := by
  rw [values_node, List.forall_mem_cons]
  refine and_congr_right fun _ => ?_
  simp only [List.mem_flatMap, forall_exists_index, and_imp]
  exact ⟨fun h c hc v hv => h v c hc hv, fun h v c hc hv => h c hc v hv⟩

end Tree

end Logo
