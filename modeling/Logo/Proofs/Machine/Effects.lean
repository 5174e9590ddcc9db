import Logo.Machine.Interpreter
import Logo.Proofs.Contract

/-!
# What a node does at once

The rules of the commands differ in what they look at and in their errors.  In what they change they
are few.

* `Effect.meets_exec`: an executed node leaves tasks that are about its children or about the body of
  a procedure, and changes the interpreter, as `Effect.Leaves` says; if it fails, it has changed
  nothing but the procedures.
* `Effect.obeys_exec`: it is a whole script whose procedures may have changed; whatever else fails has
  changed nothing at all.
* `Effect.parallel_exec`: interpreters that look alike to a script (`Interpreter.Lookalikes`) stay
  so, and meet the same tasks or the same error.
-/

namespace Logo

variable {A B : Type} {α β : Type}

/-! ## Parts of nodes -/

/-- A computation that succeeds takes its first part successfully. -/
lemma Fallible.exists_of_bind_eq_ok {x : Fallible α} {f : α → Fallible β} {v : β}
    (h : x >>= f = .ok v) : ∃ w, x = .ok w ∧ f w = .ok v := by
  cases x with
  | ok w => exact ⟨w, rfl, h⟩
  | error e => cases h

lemma Node.mem_of_expectTwo {node a b : Node} (h : node.expectTwo = .ok (a, b)) :
    a ∈ node.children ∧ b ∈ node.children := by
  unfold expectTwo at h
  split at h
  · rename_i hchildren
    cases h
    simp [hchildren]
  · cases h

/-- Whether a node holds, among the children of its children, a definition with the given body. -/
def Node.Defines (node body : Node) : Prop :=
  ∃ definitions ∈ node.children, ∃ definition ∈ definitions.children, body ∈ definition.children

lemma Procedure.body_mem_of_ofDefinition {definition : Node} {entry : String × Procedure}
    (h : ofDefinition definition = .ok entry) : entry.2.body ∈ definition.children := by
  obtain ⟨parts, hparts, h⟩ := Fallible.exists_of_bind_eq_ok h
  obtain ⟨header, -, h⟩ := Fallible.exists_of_bind_eq_ok h
  cases h
  exact (Node.mem_of_expectTwo hparts).2

namespace Effect

/-! ## Effects that change nothing -/

/-- An effect that leaves every interpreter as it was, whether it fails or not. -/
def Steady (x : Effect A α) : Prop := ∀ i, Meets x i (fun _ i' => i' = i) fun _ i' => i' = i

lemma steady_pure (v : α) : Steady (pure v : Effect A α) := fun _ => rfl

lemma steady_lift (x : Fallible α) : Steady (lift x : Effect A α) := by
  intro i
  cases x with
  | ok v => exact meets_pure.2 rfl
  | error e => exact meets_throw.2 rfl

/-- What comes behind an effect that changes nothing starts where that started. -/
lemma Steady.meets_bind {x : Effect A α} {f : α → Effect A β} {i : Interpreter A}
    {Q : β → Interpreter A → Prop} {E : RuntimeError → Interpreter A → Prop} (hx : Steady x)
    (hE : ∀ e, E e i) (hf : ∀ v, Meets (f v) i Q E) : Meets (x >>= f) i Q E := by
  refine (hx i).bind ?_ ?_
  · rintro e _ rfl
    exact hE e
  · rintro v _ rfl
    exact hf v

lemma Steady.bind {x : Effect A α} {f : α → Effect A β} (hx : Steady x) (hf : ∀ v, Steady (f v)) :
    Steady (x >>= f) :=
  fun i => hx.meets_bind (fun _ => rfl) fun v => hf v i

/-- Reading the interpreter changes nothing. -/
lemma steady_get_bind {f : Interpreter A → Effect A α} (hf : ∀ i, Steady (f i)) :
    Steady (get >>= f) :=
  fun i => hf i i

section Expressions

variable [Actuator A]

lemma steady_expression (node : Node) : Steady (expression node : Effect A Float) :=
  steady_get_bind fun _ => steady_lift _

lemma steady_condition (node : Node) : Steady (condition node : Effect A Bool) :=
  steady_get_bind fun _ => steady_lift _

lemma steady_bind (frame : Frame) (arguments : List (String × Node)) :
    Steady (Effect.bind frame arguments : Effect A Frame) := by
  induction arguments generalizing frame with
  | nil => exact steady_pure frame
  | cons argument arguments ih => exact (steady_expression _).bind fun _ => ih _

end Expressions

/-! ## What is left to be done -/

/-- What an executed node leaves to be done, and the interpreter as it leaves it. -/
inductive Leaves (node : Node) (i : Interpreter A) : List Task → Interpreter A → Prop
  /-- A script registers the procedures that it defines, and leaves its commands. -/
  | script {procedures : Table Procedure} {commands : Node} (hcommands : commands ∈ node.children)
    (hprocedures : ∀ name procedure, procedures.find? name = some procedure →
      i.procedures.find? name = some procedure ∨ node.Defines procedure.body)
    (hhead : Head.ofText? node.text = some .program) :
    Leaves node i [.exec commands] { i with procedures }
  /-- A block leaves its nodes in a row, a choice at most one of them. -/
  | nodes {nodes : List Node} (hnodes : nodes ⊆ node.children)
    (hhead : Head.ofText? node.text ∈ [some .block, some .choice]) :
    Leaves node i (nodes.map .exec) i
  /-- An action is left with a wait behind it. -/
  | action (action : Action) : Leaves node i (paced action) i
  /-- An assignment is done at once. -/
  | assigned (name : String) (value : Float) :
    Leaves node i [] { i with scope := i.scope.store name value }
  /-- A counted loop leaves the rounds of its body. -/
  | rounds (count : Nat) {body : Node} (hbody : body ∈ node.children)
    (hhead : Head.ofText? node.text = some .repetition) : Leaves node i [.rounds count body] i
  /-- A conditional loop. -/
  | loop (condition body : Node) (hhead : Head.ofText? node.text = some .whileLoop) :
    Leaves node i [.loop condition body] i
  /-- A call enters its frame, unless too many calls are active. -/
  | call {name : String} {procedure : Procedure} (frame : Frame)
    (hfind : i.procedures.find? name = some procedure) (hdepth : i.scope.depth ≤ maxCallDepth)
    (hhead : Head.ofText? node.text = some .call) :
    Leaves node i [.exec procedure.body, .leave] { i with scope := i.scope.push frame }

/-- What is left by an effect that is one of the rules.  If it fails, it leaves all as it was. -/
def Obeys (node : Node) (x : Effect A (List Task)) : Prop :=
  ∀ i, Meets x i (Leaves node i) fun _ i' => i' = i

variable {node : Node}

lemma obeys_throw (e : RuntimeError) : Obeys node (throw e : Effect A (List Task)) :=
  fun _ => meets_throw.2 rfl

lemma obeys_pure {tasks : List Task} (h : ∀ i : Interpreter A, Leaves node i tasks i) :
    Obeys node (pure tasks : Effect A (List Task)) :=
  fun i => meets_pure.2 (h i)

lemma Steady.obeys_bind {x : Effect A α} {f : α → Effect A (List Task)} (hx : Steady x)
    (hf : ∀ v, Obeys node (f v)) : Obeys node (x >>= f) :=
  fun i => hx.meets_bind (fun _ => rfl) fun v => hf v i

lemma obeys_lift_bind {x : Fallible α} {f : α → Effect A (List Task)}
    (hf : ∀ v, x = .ok v → Obeys node (f v)) : Obeys node (lift x >>= f) := by
  cases x with
  | ok v => exact hf v rfl
  | error e => exact obeys_throw e

lemma obeys_action (action : Action) : Obeys node (pure (paced action) : Effect A (List Task)) :=
  obeys_pure fun _ => .action action

lemma obeys_nodes {nodes : List Node} (h : nodes ⊆ node.children)
    (hhead : Head.ofText? node.text ∈ [some .block, some .choice]) :
    Obeys node (pure (nodes.map .exec) : Effect A (List Task)) :=
  obeys_pure fun _ => .nodes h hhead

/-- Definitions are registered one by one, so that those before a bad one stay. -/
lemma meets_register (definitions : List Node) (i : Interpreter A) :
    Meets (register definitions) i
      (fun _ i' => ∃ procedures, i' = { i with procedures } ∧
        ∀ name procedure, procedures.find? name = some procedure →
          i.procedures.find? name = some procedure ∨
            ∃ definition ∈ definitions, procedure.body ∈ definition.children)
      fun _ i' => ∃ procedures, i' = { i with procedures } := by
  induction definitions generalizing i with
  | nil => exact meets_pure.2 ⟨i.procedures, rfl, fun _ _ h => .inl h⟩
  | cons definition definitions ih =>
    unfold register
    cases hentry : Procedure.ofDefinition definition with
    | error e => exact meets_throw.2 ⟨i.procedures, rfl⟩
    | ok entry =>
      refine meets_bind.2 (meets_pure.2 (meets_bind.2 (meets_modify.2 ((ih _).mono ?_ ?_))))
      · rintro _ _ ⟨procedures, rfl, hprocedures⟩
        refine ⟨procedures, rfl, fun name procedure hfind => ?_⟩
        rcases hprocedures name procedure hfind with hfind | ⟨later, hlater, hbody⟩
        · by_cases hname : name = entry.1
          · subst hname
            obtain rfl : entry.2 = procedure := by simpa using hfind
            exact .inr ⟨definition, by simp, Procedure.body_mem_of_ofDefinition hentry⟩
          · rw [Table.find?_insert_of_ne _ _ hname] at hfind
            exact .inl hfind
        · exact .inr ⟨later, by simp [hlater], hbody⟩
      · rintro _ _ ⟨procedures, rfl⟩
        exact ⟨procedures, rfl⟩

section Commands

/-- A script registers its procedures before it leaves its commands. -/
lemma meets_program (hhead : Head.ofText? node.text = some .program) (i : Interpreter A) :
    Meets (do
      let (commands, procedures) ← lift node.expectTwo
      register (Tree.children procedures)
      return [.exec commands] : Effect A (List Task)) i (Leaves node i)
      fun _ i' => ∃ procedures, i' = { i with procedures } := by
  cases hparts : node.expectTwo with
  | error e => exact meets_throw.2 ⟨i.procedures, rfl⟩
  | ok parts =>
    obtain ⟨hcommands, hdefinitions⟩ := Node.mem_of_expectTwo hparts
    refine (meets_register _ i).bind (fun _ _ h => h) ?_
    rintro _ _ ⟨procedures, rfl, hprocedures⟩
    refine meets_pure.2 (.script hcommands (fun name procedure hfind => ?_) hhead)
    exact (hprocedures name procedure hfind).imp_right fun h => ⟨parts.2, hdefinitions, h⟩

lemma obeys_bare (action : Action) : Obeys node (bare node action : Effect A (List Task)) :=
  (steady_lift _).obeys_bind fun _ => obeys_action action

lemma obeys_whileLoop (hhead : Head.ofText? node.text = some .whileLoop) :
    Obeys node (whileLoop node : Effect A (List Task)) :=
  (steady_lift _).obeys_bind fun parts => obeys_pure fun _ => .loop parts.1 parts.2 hhead

variable [Actuator A]

lemma obeys_move (action : Float → Action) : Obeys node (move node action : Effect A (List Task)) :=
  (steady_lift _).obeys_bind fun _ => (steady_expression _).obeys_bind fun _ => obeys_action _

lemma obeys_color : Obeys node (color node : Effect A (List Task)) :=
  (steady_lift _).obeys_bind fun _ => (steady_expression _).obeys_bind fun _ =>
    (steady_expression _).obeys_bind fun _ => (steady_expression _).obeys_bind fun _ =>
    (steady_lift _).obeys_bind fun _ => (steady_lift _).obeys_bind fun _ =>
    (steady_lift _).obeys_bind fun _ => obeys_action _

lemma obeys_jump : Obeys node (jump node : Effect A (List Task)) :=
  (steady_lift _).obeys_bind fun _ => (steady_expression _).obeys_bind fun _ =>
    (steady_expression _).obeys_bind fun _ => obeys_action _

lemma obeys_assignment : Obeys node (assignment node : Effect A (List Task)) := by
  refine (steady_lift _).obeys_bind fun parts => ?_
  dsimp only
  split
  · exact obeys_throw _
  · exact (steady_expression _).obeys_bind fun value i => .assigned _ value

lemma obeys_repetition (hhead : Head.ofText? node.text = some .repetition) :
    Obeys node (repetition node : Effect A (List Task)) :=
  obeys_lift_bind fun _ hparts => (steady_expression _).obeys_bind fun _ =>
    (steady_lift _).obeys_bind fun _ => obeys_pure fun _ =>
    .rounds _ (Node.mem_of_expectTwo hparts).2 hhead

lemma obeys_choice (hhead : Head.ofText? node.text = some .choice) :
    Obeys node (choice node : Effect A (List Task)) := by
  have hheads : Head.ofText? node.text ∈ [some .block, some .choice] := by simp [hhead]
  unfold choice
  split
  · rename_i chosen hchildren
    refine (steady_condition _).obeys_bind fun holds => ?_
    cases holds
    · exact obeys_nodes (List.nil_subset _) hheads
    · exact obeys_nodes (List.cons_subset.2 ⟨by simp [hchildren], List.nil_subset _⟩) hheads
  · rename_i chosen otherwise hchildren
    refine (steady_condition _).obeys_bind fun holds => ?_
    cases holds
    · exact obeys_nodes (List.cons_subset.2 ⟨by simp [hchildren], List.nil_subset _⟩) hheads
    · exact obeys_nodes (List.cons_subset.2 ⟨by simp [hchildren], List.nil_subset _⟩) hheads
  · exact obeys_throw _

/-- A call that goes well enters a frame and leaves the body of the procedure, to be followed by the
return from the call. -/
theorem meets_call (node : Node) (i : Interpreter A) :
    Meets (call node) i
      (fun tasks i' => ∃ name procedure frame, i.procedures.find? name = some procedure ∧
        i.scope.depth ≤ maxCallDepth ∧ tasks = [.exec procedure.body, .leave] ∧
        i' = { i with scope := i.scope.push frame })
      fun _ i' => i' = i := by
  refine (steady_lift _).meets_bind (fun _ => rfl) fun parts => ?_
  refine meets_bind.2 (meets_get.2 ?_)
  dsimp only
  split
  · exact meets_throw.2 rfl
  · rename_i procedure hfind
    split
    · exact meets_throw.2 rfl
    · refine (steady_bind _ _).meets_bind (fun _ => rfl) fun frame => ?_
      split
      · exact meets_throw.2 rfl
      · exact ⟨_, procedure, frame, hfind, Nat.le_of_not_lt ‹_›, rfl, rfl⟩

lemma obeys_call (hhead : Head.ofText? node.text = some .call) :
    Obeys node (call node : Effect A (List Task)) := by
  intro i
  refine (meets_call node i).mono ?_ fun _ _ h => h
  rintro _ _ ⟨name, procedure, frame, hfind, hdepth, rfl, rfl⟩
  exact .call frame hfind hdepth hhead

end Commands

variable [Actuator A]

lemma exec_of_call (hcall : node.text = "do") : (exec node : Effect A (List Task)) = call node := by
  rw [exec, hcall]
  rfl

/-- Whatever a node is but a whole script, executing it leaves and changes no more than the rules do,
and nothing at all if it fails. -/
theorem obeys_exec (hhead : Head.ofText? node.text ≠ some .program) :
    Obeys node (exec node : Effect A (List Task)) := by
  unfold exec
  split
  · exact obeys_throw _
  · exact absurd ‹_› hhead
  · rename_i hblock
    exact obeys_nodes (List.Subset.refl _) (by simp [hblock])
  · exact obeys_move .forward
  · exact obeys_move .right
  · exact obeys_move .left
  · exact obeys_move .face
  · exact obeys_bare .penUp
  · exact obeys_bare .penDown
  · exact obeys_bare .home
  · exact obeys_color
  · exact obeys_jump
  · exact obeys_assignment
  · exact obeys_repetition ‹_›
  · exact obeys_whileLoop ‹_›
  · exact obeys_choice ‹_›
  · exact obeys_call ‹_›

/-- Whatever a node is, executing it leaves and changes no more than the rules do, and at most the
procedures if it fails. -/
theorem meets_exec (node : Node) (i : Interpreter A) :
    Meets (exec node) i (Leaves node i) fun _ i' => ∃ procedures, i' = { i with procedures } := by
  by_cases hhead : Head.ofText? node.text = some .program
  · unfold exec
    rw [hhead]
    exact meets_program hhead i
  · refine (obeys_exec hhead i).mono (fun _ _ h => h) ?_
    rintro _ _ rfl
    exact ⟨_, rfl⟩

lemma leaves_of_exec {i i' : Interpreter A} {tasks : List Task}
    (h : exec node i = .ok tasks i') : Leaves node i tasks i' :=
  (meets_exec node i).of_ok h

lemma exists_procedures_of_exec {i i' : Interpreter A} {e : RuntimeError}
    (h : exec node i = .error e i') : ∃ procedures, i' = { i with procedures } :=
  (meets_exec node i).of_error h

/-- A node that is no whole script has changed nothing if it fails. -/
lemma eq_of_exec_eq_error {i i' : Interpreter A} {e : RuntimeError}
    (hhead : Head.ofText? node.text ≠ some .program) (h : exec node i = .error e i') : i' = i :=
  (obeys_exec hhead i).of_error h

end Effect

/-! ## Two interpreters side by side -/

/-- The relation is between interpreters that look alike to a script, and that stay related whatever
a command does to both.  Nothing is said of leaving calls. -/
structure Interpreter.Lookalikes [Actuator A] [Actuator B]
    (R : Interpreter A → Interpreter B → Prop) : Prop where
  surroundings {i j} : R i j → i.surroundings = j.surroundings
  find? {i j} : R i j → ∀ name, i.procedures.find? name = j.procedures.find? name
  depth {i j} : R i j → i.scope.depth = j.scope.depth
  register {i j} : R i j → ∀ name procedure,
    R { i with procedures := i.procedures.insert name procedure }
      { j with procedures := j.procedures.insert name procedure }
  store {i j} : R i j → ∀ name value,
    R { i with scope := i.scope.store name value } { j with scope := j.scope.store name value }
  push {i j} : R i j → ∀ frame,
    R { i with scope := i.scope.push frame } { j with scope := j.scope.push frame }
  perform {i j} : R i j → ∀ action,
    R { i with actuator := Actuator.perform action i.actuator }
      { j with actuator := Actuator.perform action j.actuator }

/-- The relation is between interpreters that no script can tell apart: they look alike to it, and
whatever it does to both keeps them related. -/
structure Interpreter.Twins [Actuator A] [Actuator B]
    (R : Interpreter A → Interpreter B → Prop) : Prop extends Interpreter.Lookalikes R where
  pop {i j} : R i j → ∀ calls,
    R { i with scope := i.scope.pop calls } { j with scope := j.scope.pop calls }

namespace Effect

/-- Two results with the same answer or the same error, and related interpreters. -/
def Matched (R : Interpreter A → Interpreter B → Prop) :
    EStateM.Result RuntimeError (Interpreter A) α → EStateM.Result RuntimeError (Interpreter B) α → Prop
  | .ok v i, .ok w j => v = w ∧ R i j
  | .error e i, .error e' j => e = e' ∧ R i j
  | .ok _ _, .error _ _ => False
  | .error _ _, .ok _ _ => False

/-- There are two ways to match. -/
lemma Matched.cases {R : Interpreter A → Interpreter B → Prop}
    {x : EStateM.Result RuntimeError (Interpreter A) α}
    {y : EStateM.Result RuntimeError (Interpreter B) α} (h : Matched R x y) :
    (∃ v i j, x = .ok v i ∧ y = .ok v j ∧ R i j) ∨
      ∃ e i j, x = .error e i ∧ y = .error e j ∧ R i j := by
  cases x with
  | ok v i =>
    cases y with
    | ok w j =>
      obtain ⟨rfl, hij⟩ := h
      exact .inl ⟨v, i, j, rfl, rfl, hij⟩
    | error e j => exact h.elim
  | error e i =>
    cases y with
    | ok w j => exact h.elim
    | error e' j =>
      obtain ⟨rfl, hij⟩ := h
      exact .inr ⟨e, i, j, rfl, rfl, hij⟩

/-- Two effects that match wherever they start from related interpreters. -/
def Parallel (R : Interpreter A → Interpreter B → Prop) (x : Effect A α) (y : Effect B α) : Prop :=
  ∀ i j, R i j → Matched R (x i) (y j)

section Rules

variable {R : Interpreter A → Interpreter B → Prop} {x : Effect A α} {y : Effect B α}
variable {f : α → Effect A β} {g : α → Effect B β}

lemma parallel_pure (v : α) : Parallel R (pure v : Effect A α) (pure v) := fun _ _ h => ⟨rfl, h⟩

lemma parallel_throw (e : RuntimeError) : Parallel R (throw e : Effect A α) (throw e) :=
  fun _ _ h => ⟨rfl, h⟩

lemma parallel_lift (v : Fallible α) : Parallel R (lift v : Effect A α) (lift v) := by
  cases v with
  | ok v => exact parallel_pure v
  | error e => exact parallel_throw e

lemma parallel_modify {f : Interpreter A → Interpreter A} {g : Interpreter B → Interpreter B}
    (h : ∀ i j, R i j → R (f i) (g j)) :
    Parallel R (modify f : Effect A PUnit) (modify g : Effect B PUnit) :=
  fun i j hij => ⟨rfl, h i j hij⟩

lemma Parallel.bind (h : Parallel R x y) (hf : ∀ v, Parallel R (f v) (g v)) :
    Parallel R (x >>= f) (y >>= g) := by
  intro i j hij
  rw [bind_apply, bind_apply]
  rcases (h i j hij).cases with ⟨v, i', j', hx, hy, hij'⟩ | ⟨e, i', j', hx, hy, hij'⟩
  · rw [hx, hy]
    exact hf v i' j' hij'
  · rw [hx, hy]
    exact ⟨rfl, hij'⟩

/-- What two effects do with the interpreters they read. -/
lemma parallel_get_bind {f : Interpreter A → Effect A β} {g : Interpreter B → Effect B β}
    (h : ∀ i j, R i j → Parallel R (f i) (g j)) : Parallel R (get >>= f) (get >>= g) :=
  fun i j hij => h i j hij i j hij

end Rules

section Expressions

variable [Actuator A] [Actuator B] {R : Interpreter A → Interpreter B → Prop}
variable (hR : ∀ {i j}, R i j → i.surroundings = j.surroundings)
include hR

lemma parallel_expression (node : Node) : Parallel R (expression node) (expression node) :=
  parallel_get_bind fun i j h => by
    rw [hR h]
    exact parallel_lift _

lemma parallel_condition (node : Node) : Parallel R (condition node) (condition node) :=
  parallel_get_bind fun i j h => by
    rw [hR h]
    exact parallel_lift _

lemma parallel_bind (frame : Frame) (arguments : List (String × Node)) :
    Parallel R (Effect.bind frame arguments) (Effect.bind frame arguments) := by
  induction arguments generalizing frame with
  | nil => exact parallel_pure frame
  | cons argument arguments ih => exact (parallel_expression hR _).bind fun _ => ih _

end Expressions

section Commands

variable [Actuator A] [Actuator B] {R : Interpreter A → Interpreter B → Prop}
variable (hR : Interpreter.Lookalikes R)
include hR

lemma parallel_register (definitions : List Node) :
    Parallel R (register definitions) (register definitions) := by
  induction definitions with
  | nil => exact parallel_pure ()
  | cons definition definitions ih =>
    exact (parallel_lift _).bind fun entry =>
      (parallel_modify fun _ _ h => hR.register h _ _).bind fun _ => ih

lemma parallel_move (node : Node) (action : Float → Action) :
    Parallel R (move node action) (move node action) :=
  (parallel_lift _).bind fun _ => (parallel_expression hR.surroundings _).bind fun _ => parallel_pure _

omit [Actuator A] [Actuator B] hR in
lemma parallel_bare (node : Node) (action : Action) :
    Parallel R (bare node action) (bare node action) :=
  (parallel_lift _).bind fun _ => parallel_pure _

lemma parallel_color (node : Node) : Parallel R (color node) (color node) :=
  (parallel_lift _).bind fun _ => (parallel_expression hR.surroundings _).bind fun _ =>
    (parallel_expression hR.surroundings _).bind fun _ =>
    (parallel_expression hR.surroundings _).bind fun _ =>
    (parallel_lift _).bind fun _ => (parallel_lift _).bind fun _ => (parallel_lift _).bind fun _ =>
    parallel_pure _

lemma parallel_jump (node : Node) : Parallel R (jump node) (jump node) :=
  (parallel_lift _).bind fun _ => (parallel_expression hR.surroundings _).bind fun _ =>
    (parallel_expression hR.surroundings _).bind fun _ => parallel_pure _

lemma parallel_assignment (node : Node) : Parallel R (assignment node) (assignment node) := by
  refine (parallel_lift _).bind fun parts => ?_
  dsimp only
  split
  · exact parallel_throw _
  · exact (parallel_expression hR.surroundings _).bind fun value =>
      (parallel_modify fun _ _ h => hR.store h _ _).bind fun _ => parallel_pure _

lemma parallel_repetition (node : Node) : Parallel R (repetition node) (repetition node) :=
  (parallel_lift _).bind fun _ => (parallel_expression hR.surroundings _).bind fun _ =>
    (parallel_lift _).bind fun _ => parallel_pure _

omit [Actuator A] [Actuator B] hR in
lemma parallel_whileLoop (node : Node) : Parallel R (whileLoop node) (whileLoop node) :=
  (parallel_lift _).bind fun _ => parallel_pure _

lemma parallel_choice (node : Node) : Parallel R (choice node) (choice node) := by
  unfold choice
  split
  · exact (parallel_condition hR.surroundings _).bind fun _ => parallel_pure _
  · exact (parallel_condition hR.surroundings _).bind fun _ => parallel_pure _
  · exact parallel_throw _

lemma parallel_call (node : Node) : Parallel R (call node) (call node) := by
  refine (parallel_lift _).bind fun parts => parallel_get_bind fun i j h => ?_
  rw [hR.find? h, hR.depth h]
  dsimp only
  split
  · exact parallel_throw _
  · split
    · exact parallel_throw _
    · refine (parallel_bind hR.surroundings _ _).bind fun frame => ?_
      split
      · exact parallel_throw _
      · exact (parallel_modify fun _ _ h => hR.push h _).bind fun _ => parallel_pure _

/-- Executing a node in two interpreters that no script can tell apart. -/
theorem parallel_exec (node : Node) : Parallel R (exec node) (exec node) := by
  unfold exec
  split
  · exact parallel_throw _
  · exact (parallel_lift _).bind fun _ => (parallel_register hR _).bind fun _ => parallel_pure _
  · exact parallel_pure _
  · exact parallel_move hR node .forward
  · exact parallel_move hR node .right
  · exact parallel_move hR node .left
  · exact parallel_move hR node .face
  · exact parallel_bare node .penUp
  · exact parallel_bare node .penDown
  · exact parallel_bare node .home
  · exact parallel_color hR node
  · exact parallel_jump hR node
  · exact parallel_assignment hR node
  · exact parallel_repetition hR node
  · exact parallel_whileLoop node
  · exact parallel_choice hR node
  · exact parallel_call hR node

end Commands

end Effect

end Logo
