import Logo.Machine.Node

/-!
# Expressions

The value of an expression, by layers: a node is read at the layer of the grammar that it stands on.
The layer matters only where the text of an operator stands on a token that is a name or a number,
for such a node is an operator on the layers that look for one and an operand on the others.

Sums and products lean to the left.  Recursion does not follow a chain of them: its links are
collected on the way down to its first operand and carried out on the way back, so only the operands
of a chain deepen the recursion.

Nothing is changed and no action is made: the value depends on the surroundings alone.
-/

namespace Logo

/-! ## Chains -/

/-- An operation and its right operand. -/
abbrev Link : Type := Operation × Node

namespace Node

/-- The first operand of a chain and its links.  The links are found from the last one to the first
one, so the first one stands in front of the others in the end. -/
def chain (operation? : String → Option Operation) (links : List Link) : Node → Node × List Link
  | .node t [left, right] =>
    match operation? t.text with
    | some operation => chain operation? ((operation, right) :: links) left
    | none => (.node t [left, right], links)
  | .node t children => (.node t children, links)

/-- The operation and the operand of a sign. -/
def sign? : Node → Option Link
  | .node t [operand] => (Operation.additive? t.text).map fun operation => (operation, operand)
  | _ => none

/-- The chain of a node that is no such operation has no links. -/
theorem chain_of_not_isBinary {operation? : String → Option Operation} (links : List Link)
    {node : Node} (h : node.isBinary operation? = false) :
    node.chain operation? links = (node, links) := by
  unfold chain
  split
  · rename_i t left right
    have hnone : operation? t.text = none := by simpa [isBinary, Tree.childCount, text] using h
    simp [hnone]
  · rfl

/-- The first operand of a chain is no larger than the chain. -/
theorem sizeOf_chain_fst_le (operation? : String → Option Operation) (links : List Link)
    (node : Node) : sizeOf (node.chain operation? links).1 ≤ sizeOf node := by
  fun_induction chain operation? links node with
  | case1 links t left right operation hoperation ih =>
    simp only [Tree.node.sizeOf_spec, List.cons.sizeOf_spec]
    omega
  | case2 => exact Nat.le_refl _
  | case3 => exact Nat.le_refl _

/-- The first operand of a chain with a link is smaller than the chain. -/
theorem sizeOf_chain_fst_lt {operation? : String → Option Operation} (links : List Link)
    {node : Node} (h : node.isBinary operation? = true) :
    sizeOf (node.chain operation? links).1 < sizeOf node := by
  obtain ⟨t, children⟩ := node
  simp only [isBinary, Bool.and_eq_true, decide_eq_true_eq] at h
  obtain ⟨hcount, hsome⟩ := h
  match children, hcount with
  | [left, right], _ =>
    obtain ⟨operation, hoperation⟩ := Option.isSome_iff_exists.1 hsome
    change operation? t.text = some operation at hoperation
    have hle := sizeOf_chain_fst_le operation? ((operation, right) :: links) left
    simp only [chain, hoperation, Tree.node.sizeOf_spec, List.cons.sizeOf_spec]
    omega

/-- Every right operand of a chain is smaller than the chain. -/
theorem sizeOf_of_mem_chain_snd (operation? : String → Option Operation) {links : List Link}
    {node : Node} {link : Link} (h : link ∈ (node.chain operation? links).2) :
    link ∈ links ∨ sizeOf link.2 < sizeOf node := by
  fun_induction chain operation? links node with
  | case1 links t left right operation hoperation ih =>
    simp only [Tree.node.sizeOf_spec, List.cons.sizeOf_spec]
    rcases ih h with hmem | hlt
    · rcases List.mem_cons.1 hmem with rfl | hmem
      · right
        simp only
        omega
      · exact .inl hmem
    · right
      omega
  | case2 => exact .inl h
  | case3 => exact .inl h

/-- The operand of a sign is smaller than the sign. -/
theorem sizeOf_sign {node : Node} {link : Link} (h : node.sign? = some link) :
    sizeOf link.2 < sizeOf node := by
  unfold sign? at h
  split at h
  · obtain ⟨operation, -, rfl⟩ := Option.map_eq_some_iff.1 h
    simp only [Tree.node.sizeOf_spec, List.cons.sizeOf_spec]
    omega
  · cases h

/-- A node that is no sign is read as such. -/
theorem isSign_of_sign? {node : Node} (h : node.sign? = none) : node.isSign = false := by
  unfold sign? at h
  split at h
  · rename_i t operand
    rw [Option.map_eq_none_iff] at h
    simp [isSign, isAdditive, text, h]
  · rename_i hshape
    obtain ⟨t, children⟩ := node
    have hcount : children.length ≠ 1 := fun hone => by
      obtain ⟨operand, rfl⟩ := List.length_eq_one_iff.1 hone
      exact hshape t operand rfl
    simp [isSign, Tree.childCount, hcount]

end Node

/-! ## Layers -/

/-- The layers of expressions. -/
inductive Layer where
  /-- A sum. -/
  | sum
  /-- An operand of a sum, which may begin with a sign. -/
  | term
  /-- The right operand of a sum. -/
  | unsignedTerm
  /-- An operand of a product, which may have a sign. -/
  | factor
  /-- An operand without a sign. -/
  | primary
  deriving DecidableEq

/-- How many layers a node can still pass before a child of it is evaluated.  The lowest layer sends
operations back to the highest one. -/
def Layer.rank (layer : Layer) (node : Node) : Nat :=
  if node.isSum then
    match layer with
    | .sum => 0 | .primary => 1 | .factor => 2 | .term => 3 | .unsignedTerm => 4
  else if node.isProduct then
    match layer with
    | .unsignedTerm => 0 | .term => 0 | .sum => 1 | .primary => 2 | .factor => 3
  else if node.isSign then
    match layer with
    | .factor => 0 | .term => 1 | .unsignedTerm => 2 | .sum => 2 | .primary => 3
  else
    match layer with
    | .primary => 0 | .factor => 1 | .term => 2 | .unsignedTerm => 3 | .sum => 3

namespace Layer

/-- The order in which evaluation goes down: to smaller nodes, or to another layer of the same. -/
def Below (layer' layer : Layer) (node' node : Node) : Prop :=
  Prod.Lex (· < ·) (· < ·) (sizeOf node', layer'.rank node') (sizeOf node, layer.rank node)

variable {layer layer' : Layer} {node : Node}

/-- The links of a chain are below it on any layer. -/
theorem below_of_mem_chain {operation? : String → Option Operation} {link : Link}
    (h : link ∈ (node.chain operation? []).2) : Below layer' layer link.2 node :=
  .left _ _ ((Node.sizeOf_of_mem_chain_snd operation? h).resolve_left List.not_mem_nil)

/-- The first operand of a chain is below it on a layer that a node without links is passed to. -/
theorem below_chain {operation? : String → Option Operation}
    (h : node.isBinary operation? = false → layer'.rank node < layer.rank node) :
    Below layer' layer (node.chain operation? []).1 node := by
  cases hbinary : node.isBinary operation? with
  | true => exact .left _ _ (Node.sizeOf_chain_fst_lt [] hbinary)
  | false =>
    rw [Node.chain_of_not_isBinary [] hbinary]
    exact .right _ (h hbinary)

theorem rank_term_lt_sum (h : node.isSum = false) : term.rank node < sum.rank node := by
  simp only [rank, h]
  cases node.isProduct <;> cases node.isSign <;> decide

theorem rank_factor_lt_term (h : node.isProduct = false) : factor.rank node < term.rank node := by
  simp only [rank, h]
  cases node.isSum <;> cases node.isSign <;> decide

theorem rank_term_lt_unsignedTerm (h : node.isProduct = false) :
    term.rank node < unsignedTerm.rank node := by
  simp only [rank, h]
  cases node.isSum <;> cases node.isSign <;> decide

theorem rank_primary_lt_factor (h : node.isSign = false) :
    primary.rank node < factor.rank node := by
  simp only [rank, h]
  cases node.isSum <;> cases node.isProduct <;> decide

theorem rank_sum_lt_primary (h : (node.isSign || node.isSum || node.isProduct) = true) :
    sum.rank node < primary.rank node := by
  revert h
  simp only [rank]
  cases node.isSum <;> cases node.isProduct <;> cases node.isSign <;> decide

end Layer

/-! ## Values -/

/-- What an expression can see. -/
structure Surroundings where
  /-- The first coordinate of the actuator. -/
  x : Float
  /-- The second coordinate of the actuator. -/
  y : Float
  /-- The value of a variable. -/
  valueOf? : String → Option Float

namespace Surroundings

/-- The value of a token that denotes one by itself: a coordinate, a variable or a literal. -/
def ofToken? (s : Surroundings) (t : Token) : Option (Fallible Float) :=
  if t.text = "getX" then some (.ok s.x)
  else if t.text = "getY" then some (.ok s.y)
  else
    match t.kind with
    | .name =>
      match s.valueOf? t.text with
      | some value => some (.ok value)
      | none => some (.error (.undefinedVariable t.text))
    | .number =>
      match t.value? with
      | some value => some (.ok value)
      | none => some (.error (.unreadableNumber t.text))
    | _ => none

/-- The error of a node that is neither an operand nor an operation. -/
def meaningless (node : Node) : RuntimeError :=
  if node.isAdditive then node.malformed "1 or 2"
  else if node.isMultiplicative then node.malformed "2"
  else .unsupported node.text

/-- The value of a node on a layer.  Operands are evaluated from left to right, and the first error
is the result. -/
def eval (s : Surroundings) (layer : Layer) (node : Node) : Fallible Float :=
  match layer with
  | .sum => do
    let first ← s.eval .term (node.chain Operation.additive? []).1
    (node.chain Operation.additive? []).2.attach.foldlM
      (fun value link => return link.1.1.apply value (← s.eval .unsignedTerm link.1.2)) first
  | .term => do
    let first ← s.eval .factor (node.chain Operation.multiplicative? []).1
    (node.chain Operation.multiplicative? []).2.attach.foldlM
      (fun value link => return link.1.1.apply value (← s.eval .factor link.1.2)) first
  | .unsignedTerm =>
    if node.isProduct then do
      let first ← s.eval .primary (node.chain Operation.multiplicative? []).1
      (node.chain Operation.multiplicative? []).2.attach.foldlM
        (fun value link => return link.1.1.apply value (← s.eval .factor link.1.2)) first
    else s.eval .term node
  | .factor =>
    match _hsign : node.sign? with
    | some (operation, operand) => do
      let value ← s.eval .primary operand
      return if operation = .sub then -value else value
    | none => s.eval .primary node
  | .primary =>
    match s.ofToken? node.value with
    | some value => value
    | none =>
      if node.isSign || node.isSum || node.isProduct then s.eval .sum node
      else .error (meaningless node)
termination_by (sizeOf node, layer.rank node)
decreasing_by
  · exact Layer.below_chain Layer.rank_term_lt_sum
  · exact Layer.below_of_mem_chain link.2
  · exact Layer.below_chain Layer.rank_factor_lt_term
  · exact Layer.below_of_mem_chain link.2
  · rename_i hproduct
    exact Layer.below_chain fun hnot => absurd hproduct (by simp [Node.isProduct, hnot])
  · exact Layer.below_of_mem_chain link.2
  · rename_i hproduct
    exact .right _ (Layer.rank_term_lt_unsignedTerm (Bool.eq_false_iff.2 hproduct))
  · exact .left _ _ (Node.sizeOf_sign _hsign)
  · exact .right _ (Layer.rank_primary_lt_factor (Node.isSign_of_sign? _hsign))
  · rename_i hoperation
    exact .right _ (Layer.rank_sum_lt_primary hoperation)

/-- The value of an expression. -/
def expression (s : Surroundings) (node : Node) : Fallible Float := s.eval .sum node

/-- Whether a condition holds.  Both sides are evaluated before the comparator is looked at. -/
def condition (s : Surroundings) (node : Node) : Fallible Bool := do
  let (left, right) ← node.expectTwo
  let a ← s.expression left
  let b ← s.expression right
  if node.text = ">" then return a > b
  else if node.text = "<" then return a < b
  else if node.text = "=" then return a == b
  else throw (.unsupported node.text)

end Surroundings

end Logo
