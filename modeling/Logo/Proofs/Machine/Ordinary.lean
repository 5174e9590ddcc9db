import Logo.Proofs.Grammar.Shape
import Logo.Proofs.Machine.Expression

/-!
# Ordinary errors

The errors of a running script are of two sorts.  Some come from values, names and the depth of
calls, and any script can meet them; these are the ordinary ones.  The others come from nodes that
mean nothing where they stand.

* `RuntimeError.Ordinary` draws the line, and says of an error about a value that the value is indeed
  one that cannot be used.
* `Surroundings.ordinary_expression`, `Surroundings.ordinary_condition`: what has the shape of an
  expression or a condition has a value or an ordinary error.
-/

namespace Logo

open Grammar

/-! ## Ordinary errors -/

/-- The errors that a script can meet whatever its shape is. -/
def RuntimeError.Ordinary : RuntimeError → Prop
  | .undefinedVariable _ => True
  | .undefinedProcedure _ => True
  | .arityMismatch _ expected found => expected ≠ found
  | .recursionLimit _ depth => depth = maxCallDepth
  | .colorRange value => colorComponent value = .error (.colorRange value)
  | .countNotFinite value => loopCount value = .error (.countNotFinite value)
  | .countOutOfRange value => loopCount value = .error (.countOutOfRange value)
  | .countNotWhole value => loopCount value = .error (.countNotWhole value)
  | .unreadableNumber text => (Token.number text).value? = none
  | .notAssignable _ => False
  | .unsupported _ => False
  | .malformedNode _ _ _ => False

/-- If a result is an error, it is an ordinary one. -/
def Fallible.Ordinary {α : Type} (x : Fallible α) : Prop := ∀ e, x = .error e → e.Ordinary

namespace Fallible

variable {α β : Type}

lemma ordinary_ok (a : α) : Ordinary (.ok a) := nofun

lemma ordinary_error {e : RuntimeError} (h : e.Ordinary) : Ordinary (.error e : Fallible α) := by
  rintro _ ⟨⟩
  exact h

lemma Ordinary.bind {x : Fallible α} {f : α → Fallible β} (hx : Ordinary x)
    (hf : ∀ a, Ordinary (f a)) : Ordinary (x >>= f) := by
  cases x with
  | ok a => exact hf a
  | error e => exact ordinary_error (hx e rfl)

/-- A result that is known not to be an error, or to be a given ordinary one. -/
lemma ordinary_of_eq {x : Fallible α} {e : RuntimeError} (h : x = .error e) (he : e.Ordinary) :
    Ordinary x := by
  rw [h]
  exact ordinary_error he

lemma ordinary_loopCount (value : Float) : Ordinary (loopCount value) := by
  have hcases : (∃ n, loopCount value = .ok n) ∨
      loopCount value = .error (.countNotFinite value) ∨
      loopCount value = .error (.countOutOfRange value) ∨
      loopCount value = .error (.countNotWhole value) := by
    unfold loopCount
    split_ifs <;> simp
  rcases hcases with ⟨n, hn⟩ | he | he | he
  · rw [hn]
    exact ordinary_ok n
  · exact ordinary_of_eq he he
  · exact ordinary_of_eq he he
  · exact ordinary_of_eq he he

lemma ordinary_colorComponent (value : Float) : Ordinary (colorComponent value) := by
  have hcases : (∃ c, colorComponent value = .ok c) ∨
      colorComponent value = .error (.colorRange value) := by
    unfold colorComponent
    split_ifs <;> simp
  rcases hcases with ⟨c, hc⟩ | he
  · rw [hc]
    exact ordinary_ok c
  · exact ordinary_of_eq he he

end Fallible

/-! ## Expressions and conditions -/

/-- No operation in a script is a name or a number. -/
lemma unambiguous_of_shaped {node : Node} (h : Shaped .expression node) : node.Unambiguous := by
  have hleaf (t : Token) : Node.Unambiguous (.leaf t) := .node (by simp) (by simp)
  have hsymbol {o : Token} {texts : List String} (ho : IsSymbol texts o) :
      o.kind ≠ .name ∧ o.kind ≠ .number := by simp [ho.1]
  generalize hpart : Part.expression = part at h
  induction h with
  | name _ | number _ | coordinate _ => exact hleaf _
  | sign ho _ ih => exact .node (fun _ _ => hsymbol ho) (by simpa using ih rfl)
  | operation ho _ _ ihl ihr => exact .node (fun _ _ => hsymbol ho) (by simpa using ⟨ihl rfl, ihr rfl⟩)
  | _ => cases hpart

/-- The signs denote operations. -/
lemma exists_additive? {o : Token} (ho : IsSymbol additive o) :
    ∃ operation, Operation.additive? o.text = some operation := by
  have hadditive : ∀ text ∈ additive, (Operation.additive? text).isSome := by decide
  exact Option.isSome_iff_exists.1 (hadditive _ ho.2)

/-- The operators denote operations. -/
lemma exists_ofText? {o : Token} (ho : IsSymbol operators o) :
    ∃ operation, Operation.ofText? o.text = some operation := by
  have hoperators : ∀ text ∈ operators, (Operation.ofText? text).isSome := by decide
  exact Option.isSome_iff_exists.1 (hoperators _ ho.2)

namespace Surroundings

open Fallible

variable (s : Surroundings) {node : Node}

/-- Names, numbers and coordinates have a meaning by themselves. -/
lemma exists_ofToken? {x : Token}
    (hx : x.kind = .name ∨ x.kind = .number ∨ x.text ∈ ["getX", "getY"]) :
    ∃ value, s.ofToken? x = some value := by
  rw [← Option.isSome_iff_exists]
  unfold ofToken?
  grind

lemma ordinary_ofToken? {t : Token} {value : Fallible Float} (h : s.ofToken? t = some value) :
    Ordinary value := by
  unfold ofToken? at h
  split at h
  · cases h
    exact ordinary_ok _
  split at h
  · cases h
    exact ordinary_ok _
  split at h
  · split at h
    · cases h
      exact ordinary_ok _
    · cases h
      exact ordinary_error trivial
  · split at h
    · cases h
      exact ordinary_ok _
    · rename_i hvalue
      cases h
      exact ordinary_error hvalue
  · cases h

/-- Names, numbers and coordinates are operands. -/
lemma ordinary_leaf {x : Token}
    (hx : x.kind = .name ∨ x.kind = .number ∨ x.text ∈ ["getX", "getY"]) :
    Ordinary (s.value (.leaf x)) := by
  obtain ⟨value, hvalue⟩ := s.exists_ofToken? hx
  change Ordinary (s.primary (.leaf x))
  unfold primary
  rw [show (Tree.leaf x).value = x from rfl, hvalue]
  exact s.ordinary_ofToken? hvalue

theorem ordinary_value (h : Shaped .expression node) : Ordinary (s.value node) := by
  generalize hpart : Part.expression = part at h
  induction h with
  | name hx => exact s.ordinary_leaf (.inl hx)
  | number hx => exact s.ordinary_leaf (.inr (.inl hx))
  | coordinate hw => exact s.ordinary_leaf (.inr (.inr hw))
  | sign ho _ ih =>
    obtain ⟨operation, hoperation⟩ := exists_additive? ho
    simp only [value, hoperation]
    exact (ih rfl).bind fun _ => ordinary_ok _
  | operation ho _ _ ihl ihr =>
    obtain ⟨operation, hoperation⟩ := exists_ofText? ho
    simp only [value, hoperation]
    exact (ihl rfl).bind fun _ => (ihr rfl).bind fun _ => ordinary_ok _
  | _ => cases hpart

/-- What has the shape of an expression is read as one. -/
theorem ordinary_expression (h : Shaped .expression node) : Ordinary (s.expression node) := by
  rw [expression, s.eval_eq_value .sum (unambiguous_of_shaped h)]
  exact s.ordinary_value h

/-- What has the shape of a condition is read as one. -/
theorem ordinary_condition (h : Shaped .condition node) : Ordinary (s.condition node) := by
  cases h with
  | @comparison o l r ho hl hr =>
    have hexpect : Node.expectTwo (.node o [l, r]) = .ok (l, r) := rfl
    simp only [condition, hexpect]
    refine (s.ordinary_expression hl).bind fun a => (s.ordinary_expression hr).bind fun b => ?_
    have htext : Node.text (.node o [l, r]) ∈ comparators := ho.2
    simp only [comparators, List.mem_cons, List.not_mem_nil, or_false] at htext
    rcases htext with htext | htext | htext <;> simp only [htext] <;> exact ordinary_ok _

end Surroundings

end Logo
