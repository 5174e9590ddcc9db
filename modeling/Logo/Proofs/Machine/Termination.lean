import Logo.Proofs.Machine.Undisturbed
import Mathlib.Logic.Hydra

/-!
# Scripts without conditional loops end

A script without a conditional loop ends, whatever its actuator answers and however it is steered,
as long as it is not held up for good.  It may be stopped and started again on the way.

The tasks that are left are like the heads of a hydra: a step cuts off the first of them and grows
any number of others, each of them lighter.  What makes a task light is, in this order, that fewer
calls may still be entered at its place, that it is about a smaller node, and that it has fewer rounds
to go (`Task.weight`).  The body of a procedure may be larger than the call, but a call uses up one of
the calls that may be entered.

* `Machine.Turn.lighter`: every step makes the tasks lighter in this sense, or ends the run.
* `Machine.ends_of_whileless`: so there is a bound on the steps, and it does not depend on what is
  done to the flags meanwhile.  A step reads no more of them than whether the run goes on, so there
  are two ways to go on at every step.
* `Machine.halted_of_whileless`: the runs of a script, in all three senses.
-/

namespace Logo

variable {A : Type}

/-! ## No conditional loops -/

namespace Tree

variable {α : Type} {t c : Tree α}

lemma values_subset_of_mem (h : c ∈ t.children) : c.values ⊆ t.values := by
  obtain ⟨value, children⟩ := t
  rw [values_node]
  exact fun x hx => List.mem_cons_of_mem _ (List.mem_flatMap.2 ⟨c, h, hx⟩)

/-- A child has fewer nodes. -/
lemma length_values_lt_of_mem (h : c ∈ t.children) : c.values.length < t.values.length := by
  obtain ⟨value, children⟩ := t
  obtain ⟨before, after, rfl⟩ := List.append_of_mem (show c ∈ children from h)
  rw [values_node, List.flatMap_append, List.flatMap_cons]
  simp only [List.length_cons, List.length_append]
  omega

lemma length_values_pos (t : Tree α) : 0 < t.values.length := by
  obtain ⟨value, children⟩ := t
  rw [values_node]
  exact Nat.succ_pos _

end Tree

/-- No conditional loop is in the node. -/
def Node.Whileless (node : Node) : Prop := ∀ t ∈ node.values, t.text ≠ "while"

instance (node : Node) : Decidable node.Whileless :=
  inferInstanceAs (Decidable (∀ t ∈ node.values, t.text ≠ "while"))

lemma Node.Whileless.of_mem {node child : Node} (h : node.Whileless)
    (hchild : child ∈ node.children) : child.Whileless :=
  fun t ht => h t (Tree.values_subset_of_mem hchild ht)

lemma Node.Whileless.text_ne {node : Node} (h : node.Whileless) : node.text ≠ "while" := by
  obtain ⟨value, children⟩ := node
  exact h value (by simp [Tree.values_node])

/-- No conditional loop is to be executed in the task. -/
def Task.Whileless : Task → Prop
  | .exec node => node.Whileless
  | .act _ => True
  | .pace => True
  | .rounds _ body => body.Whileless
  | .loop _ _ => False
  | .leave => True

/-- No conditional loop is in any procedure. -/
def Interpreter.Whileless (i : Interpreter A) : Prop :=
  ∀ name procedure, i.procedures.find? name = some procedure → procedure.body.Whileless

/-- A node without conditional loops leaves tasks and procedures without any. -/
lemma Effect.Leaves.whileless {node : Node} {i i' : Interpreter A} {tasks : List Task}
    (h : Leaves node i tasks i') (hnode : node.Whileless) (hi : i.Whileless) :
    (∀ task ∈ tasks, task.Whileless) ∧ i'.Whileless := by
  cases h with
  | script hcommands hprocedures =>
    refine ⟨by simpa [Task.Whileless] using hnode.of_mem hcommands, fun name procedure hfind => ?_⟩
    rcases hprocedures name procedure hfind with hold | ⟨table, htable, definition, hdefinition, hbody⟩
    · exact hi name procedure hold
    · exact ((hnode.of_mem htable).of_mem hdefinition).of_mem hbody
  | nodes hnodes =>
    refine ⟨fun task htask => ?_, hi⟩
    obtain ⟨child, hchild, rfl⟩ := List.mem_map.1 htask
    exact hnode.of_mem (hnodes hchild)
  | action action => exact ⟨by simp [paced, Task.Whileless], hi⟩
  | assigned name value => exact ⟨by simp, hi⟩
  | rounds count hbody => exact ⟨by simpa [Task.Whileless] using hnode.of_mem hbody, hi⟩
  | loop condition body hhead =>
    have hwhile : node.text = "while" := by
      obtain ⟨_, _, hwords, -⟩ := List.lookup_eq_some_iff.1 hhead
      have hmem : (node.text, Head.whileLoop) ∈ Head.words := by simp [hwords]
      simpa [Head.words] using hmem
    exact absurd hwhile hnode.text_ne
  | call frame hfind _ => exact ⟨by simpa [Task.Whileless] using hi _ _ hfind, hi⟩

/-- What takes the place of a task without conditional loops is without any, too. -/
lemma Task.Unfolds.whileless [Actuator A] {i i' : Interpreter A} {task : Task} {tasks : List Task}
    (h : task.Unfolds i tasks i') (htask : task.Whileless) (hi : i.Whileless) :
    (∀ task ∈ tasks, task.Whileless) ∧ i'.Whileless := by
  cases h with
  | executed hleaves => exact hleaves.whileless htask hi
  | round count body => exact ⟨by simpa [Whileless] using htask, hi⟩
  | pass condition body => exact htask.elim
  | _ => exact ⟨by simp, hi⟩

/-! ## Weights -/

/-- Weights are compared by their first, then by their second, then by their third part. -/
abbrev Weight : Type := ℕ ×ₗ ℕ ×ₗ ℕ

namespace Weight

/-- The weight with the given parts. -/
def of (a b c : ℕ) : Weight := toLex (a, toLex (b, c))

lemma of_lt_of {a b c a' b' c' : ℕ} :
    of a b c < of a' b' c' ↔ a < a' ∨ a = a' ∧ (b < b' ∨ b = b' ∧ c < c') := by
  simp [of, Prod.Lex.toLex_lt_toLex]

end Weight

/-- The weight of a task in a place where the given number of calls may still be entered.  The rounds
of a body come between the node that orders them and the body itself. -/
def Task.weight (spare : ℕ) : Task → Weight
  | .exec node => .of spare (2 * node.values.length) 0
  | .act _ => .of 0 0 0
  | .pace => .of 0 0 0
  | .rounds count body => .of spare (2 * body.values.length + 1) count
  | .loop _ _ => .of 0 0 0
  | .leave => .of 0 0 0

/-- The weights of tasks, of which the first is done within the given number of calls. -/
def burden (calls : ℕ) : List Task → Multiset Weight
  | [] => 0
  | task :: tasks =>
    task.weight (maxCallDepth - calls) ::ₘ burden (if task.isLeave then calls - 1 else calls) tasks

/-- The tasks at the back are done within as many calls as are left there. -/
lemma burden_append (calls : ℕ) (tasks rest : List Task) :
    burden (calls + tasks.countP Task.isLeave) (tasks ++ rest) =
      burden (calls + tasks.countP Task.isLeave) tasks + burden calls rest := by
  induction tasks with
  | nil => simp [burden]
  | cons task tasks ih =>
    rw [List.cons_append, burden, burden, Multiset.cons_add]
    congr 1
    cases hleave : task.isLeave with
    | true =>
      rw [List.countP_cons_of_pos hleave, if_pos rfl]
      exact ih
    | false =>
      rw [List.countP_cons_of_neg (by simp [hleave]), if_neg Bool.false_ne_true, ih]

/-- Where no call is left, the burden is light if every task is. -/
lemma lt_of_mem_burden {calls : ℕ} {tasks : List Task} {w bound : Weight}
    (h : ∀ task ∈ tasks, task.isLeave = false ∧ task.weight (maxCallDepth - calls) < bound)
    (hw : w ∈ burden calls tasks) : w < bound := by
  induction tasks with
  | nil => simp [burden] at hw
  | cons task tasks ih =>
    obtain ⟨⟨hleave, hlt⟩, htasks⟩ := List.forall_mem_cons.1 h
    rw [burden, hleave, if_neg Bool.false_ne_true] at hw
    rcases Multiset.mem_cons.1 hw with rfl | hw
    · exact hlt
    · exact ih htasks hw

/-- What a node leaves is lighter than the node. -/
lemma Effect.Leaves.lighter {node : Node} {i i' : Interpreter A} {tasks : List Task}
    (h : Leaves node i tasks i') {w : Weight} (hw : w ∈ burden i'.scope.locals.length tasks) :
    w < (Task.exec node).weight (maxCallDepth - i.scope.locals.length) := by
  have hpos : 0 < node.values.length := node.length_values_pos
  have hlight : Weight.of 0 0 0 < (Task.exec node).weight (maxCallDepth - i.scope.locals.length) :=
    Weight.of_lt_of.2 (by omega)
  cases h with
  | script hcommands _ =>
    have hlt := Tree.length_values_lt_of_mem hcommands
    refine lt_of_mem_burden (List.forall_mem_singleton.2 ⟨rfl, ?_⟩) hw
    exact Weight.of_lt_of.2 (.inr ⟨rfl, by omega⟩)
  | nodes hnodes =>
    refine lt_of_mem_burden (List.forall_mem_map.2 fun child hchild => ⟨rfl, ?_⟩) hw
    have hlt := Tree.length_values_lt_of_mem (hnodes hchild)
    exact Weight.of_lt_of.2 (by omega)
  | action action =>
    refine lt_of_mem_burden (List.forall_mem_cons.2 ⟨⟨rfl, ?_⟩, ?_⟩) hw
    · exact hlight
    · exact List.forall_mem_singleton.2 ⟨rfl, hlight⟩
  | assigned name value => simp [burden] at hw
  | rounds count hbody =>
    have hlt := Tree.length_values_lt_of_mem hbody
    refine lt_of_mem_burden (List.forall_mem_singleton.2 ⟨rfl, ?_⟩) hw
    exact Weight.of_lt_of.2 (by omega)
  | loop condition body _ =>
    refine lt_of_mem_burden (List.forall_mem_singleton.2 ⟨rfl, ?_⟩) hw
    exact hlight
  | call frame _ hdepth =>
    -- the body may be of any size, but it is executed where one call less may be entered
    have hspare :
        maxCallDepth - (i.scope.locals.length + 1) < maxCallDepth - i.scope.locals.length := by
      rw [Scope.depth] at hdepth
      omega
    simp only [burden, Scope.push, List.length_cons, Task.isLeave, Multiset.mem_cons,
      Multiset.notMem_zero, or_false] at hw
    rcases hw with rfl | rfl
    · exact Weight.of_lt_of.2 (.inl hspare)
    · exact hlight

/-- What takes the place of a task is lighter than the task. -/
lemma Task.Unfolds.lighter [Actuator A] {i i' : Interpreter A} {task : Task} {tasks : List Task}
    (h : task.Unfolds i tasks i') (htask : task.Whileless) {w : Weight}
    (hw : w ∈ burden i'.scope.locals.length tasks) :
    w < task.weight (maxCallDepth - i.scope.locals.length) := by
  cases h with
  | executed hleaves => exact hleaves.lighter hw
  | round count body =>
    refine lt_of_mem_burden
      (List.forall_mem_cons.2 ⟨⟨rfl, ?_⟩, List.forall_mem_singleton.2 ⟨rfl, ?_⟩⟩) hw
    · exact Weight.of_lt_of.2 (by omega)
    · exact Weight.of_lt_of.2 (by omega)
  | pass condition body => exact htask.elim
  | _ => simp [burden] at hw

namespace Machine

/-- No conditional loop is to come. -/
structure Whileless (m : Machine A) : Prop where
  tasks : ∀ task ∈ m.progress.pending, task.Whileless
  procedures : m.interpreter.Whileless

/-- The weights of the tasks that are left. -/
def burden (m : Machine A) : Multiset Weight :=
  Logo.burden m.interpreter.scope.locals.length m.progress.pending

variable [Actuator A] {m m' : Machine A}

/-- A step that does something cuts off one weight, in whose place come lighter ones, or it ends the
run. -/
theorem Turn.lighter (h : Turn m m') (hm : m.Whileless) (hhalted : m.halted = false)
    (hblocked : m.blocked = false) :
    m'.halted ∨ m'.Whileless ∧ Relation.CutExpand (· < ·) m'.burden m.burden := by
  cases h with
  | still hstill => simp [hhalted, hblocked] at hstill
  | ended _ => exact .inl rfl
  | failed _ _ _ _ => exact .inl rfl
  | @unfolded task rest tasks i hprogress hunfolds =>
    obtain ⟨hpending, hprocedures⟩ := hm
    rw [hprogress, Progress.pending_working] at hpending
    obtain ⟨htask, hrest⟩ := List.forall_mem_cons.1 hpending
    obtain ⟨htasks, hi⟩ := hunfolds.whileless htask hprocedures
    refine .inr ⟨⟨List.forall_mem_append.2 ⟨htasks, hrest⟩, hi⟩, ?_⟩
    -- the other tasks are done within as many calls as before
    have hafter := burden_append (if task.isLeave then m.interpreter.scope.locals.length - 1
      else m.interpreter.scope.locals.length) tasks rest
    rw [← hunfolds.length_locals] at hafter
    rw [burden, burden, hprogress, Progress.pending_working, Progress.pending_working, hafter,
      Logo.burden, ← Multiset.singleton_add, Relation.cutExpand_add_right]
    exact Relation.cutExpand_singleton fun w hw => hunfolds.lighter htask hw

end Machine

/-! ## Bounds on the steps -/

/-- A control under which nothing waits, whether the run goes on or not. -/
def RunControl.unheld (c : RunControl) (running : Bool) : RunControl := { c.freed with running }

lemma RunControl.holds_unheld (c : RunControl) (running : Bool) :
    (c.unheld running).holds = false := by
  cases running <;> rfl

namespace Machine

variable [Actuator A] {m : Machine A}

/-- The number of steps of a play that are no waits. -/
def turns (m : Machine A) : List Move → ℕ
  | [] => 0
  | .step :: moves => (if m.blocked then 0 else 1) + m.step.turns moves
  | .control action :: moves => (m.control action).turns moves

lemma turns_append (m : Machine A) (moves moves' : List Move) :
    m.turns (moves ++ moves') = m.turns moves + (m.play moves).turns moves' := by
  induction moves generalizing m with
  | nil => exact (Nat.zero_add _).symm
  | cons x moves ih =>
    cases x with
    | step => rw [List.cons_append, turns, turns, ih, play_cons, move, Nat.add_assoc]
    | control action => exact ih _

lemma halted_play (h : m.halted) (moves : List Move) : (m.play moves).halted :=
  play_invariant (P := fun m => m.halted = true) h (fun m hm => by rw [step_of_halted hm, hm])
    (fun _ _ hm => hm) moves

omit [Actuator A] in
lemma blocked_under {c : RunControl} (h : c.holds = false) (m : Machine A) :
    (m.under c).blocked = false := by
  unfold blocked
  split
  · exact h
  · rfl

/-- There is a bound on the steps of the machine, waits not counted, whatever its control is and
whatever is done to it. -/
def Ends (m : Machine A) : Prop :=
  ∃ bound, ∀ c moves, bound ≤ (m.under c).turns moves → ((m.under c).play moves).halted

lemma ends_of_halted (h : m.halted) : m.Ends :=
  ⟨0, fun c moves _ => halted_play (m := m.under c) h moves⟩

/-- If a machine ends after its next step, wherever that leads, it ends. -/
lemma ends_of_step (h : ∀ c, (m.under c).blocked = false → (m.under c).step.Ends) : m.Ends := by
  let unheld (running : Bool) : RunControl := m.interpreter.control.unheld running
  have hunheld (running : Bool) : (m.under (unheld running)).blocked = false :=
    blocked_under (RunControl.holds_unheld _ running) m
  choose bound hbound using fun running => h (unheld running) (hunheld running)
  refine ⟨1 + max (bound true) (bound false), fun c moves => ?_⟩
  induction moves generalizing c with
  | nil =>
    intro hle
    simp [turns] at hle
  | cons x moves ih =>
    cases x with
    | control action => exact ih (c.apply action)
    | step =>
      intro hle
      by_cases hblocked : (m.under c).blocked
      · -- a wait is not counted, and leaves everything as it is
        rw [turns, if_pos hblocked, step_of_blocked hblocked, Nat.zero_add] at hle
        rw [play_cons, move, step_of_blocked hblocked]
        exact ih c hle
      · have hstep : (m.under c).step = (m.under (unheld c.running)).step.under c :=
          step_under rfl ((Bool.eq_false_iff.2 hblocked).trans (hunheld c.running).symm)
        rw [turns, if_neg hblocked, hstep] at hle
        rw [play_cons, move, hstep]
        have hmax : bound c.running ≤ max (bound true) (bound false) := by
          cases c.running with
          | true => exact le_max_left _ _
          | false => exact le_max_right _ _
        exact hbound c.running c moves (by omega)

/-- Without conditional loops to come there is a bound on the steps. -/
theorem ends_of_whileless (hm : m.Whileless) : m.Ends := by
  have hwf : WellFounded (Relation.CutExpand ((· < ·) : Weight → Weight → Prop)) :=
    wellFounded_lt.cutExpand
  induction hburden : m.burden using hwf.induction generalizing m with
  | _ weights ih =>
    subst hburden
    by_cases hhalted : m.halted
    · exact ends_of_halted hhalted
    · refine ends_of_step fun c hblocked => ?_
      have hm' : (m.under c).Whileless := ⟨hm.tasks, hm.procedures⟩
      rcases (m.under c).turn_step.lighter hm' (Bool.eq_false_iff.2 hhalted) hblocked with
        hend | ⟨hafter, hlighter⟩
      · exact ends_of_halted hend
      · exact ih _ hlighter hafter rfl

/-! ## Runs of a script -/

omit [Actuator A] in
lemma whileless_ofProgram (i : Interpreter A) {program : Node} (h : program.Whileless) :
    (ofProgram i program).Whileless := by
  refine ⟨?_, fun name procedure hfind => ?_⟩
  · simpa [ofProgram, Task.Whileless] using h
  · cases hfind

/-- The machine after a number of moves of an endless play. -/
def after (m : Machine A) (moves : ℕ → Move) (n : ℕ) : Machine A :=
  m.play ((List.range n).map moves)

/-- If there is always another step to come that is no wait, any number of them is made. -/
lemma exists_le_turns {moves : ℕ → Move}
    (h : ∀ n, ∃ k, n ≤ k ∧ moves k = .step ∧ (m.after moves k).blocked = false) (bound : ℕ) :
    ∃ n, bound ≤ m.turns ((List.range n).map moves) := by
  induction bound with
  | zero => exact ⟨0, Nat.zero_le _⟩
  | succ bound ih =>
    obtain ⟨n, hn⟩ := ih
    obtain ⟨k, hk, hstep, hblocked⟩ := h n
    refine ⟨k + 1, ?_⟩
    have hbefore : m.turns ((List.range n).map moves) ≤ m.turns ((List.range k).map moves) := by
      obtain ⟨more, rfl⟩ := Nat.exists_eq_add_of_le hk
      rw [List.range_add, List.map_append, turns_append]
      exact Nat.le_add_right _ _
    have hlast : (m.after moves k).turns [.step] = 1 := by
      rw [turns, hblocked]
      rfl
    rw [after] at hlast
    rw [List.range_succ, List.map_append, List.map_singleton, hstep, turns_append, hlast]
    omega

/-- Without a controller, a machine that is not held up never is. -/
lemma turns_replicate (h : m.interpreter.control.holds = false) (n : ℕ) :
    m.turns (.replicate n .step) = n := by
  induction n generalizing m with
  | zero => rfl
  | succ n ih =>
    have hblocked : m.blocked = false := blocked_under h m
    rw [List.replicate_succ, turns, hblocked, ih (by rw [control_step, h])]
    exact Nat.add_comm _ _

lemma play_replicate (m : Machine A) (n : ℕ) : m.play (.replicate n .step) = run n m := by
  rw [run_eq_iterate]
  induction n generalizing m with
  | zero => rfl
  | succ n ih => rw [List.replicate_succ, play_cons, ih, Function.iterate_succ_apply]; rfl

/-- A script without conditional loops ends, as completed, as stopped or with an error.

There is a bound on the steps that it makes, waits not counted, and this bound holds whatever is done
to the flags meanwhile.  So it ends in every endless play in which it is not held up for good; and a
run without a controller ends with some amount of fuel, unless it is held up at its first wait. -/
theorem halted_of_whileless {program : Node} (h : program.Whileless) (i : Interpreter A) :
    let whole := ofProgram i program
    (∃ bound, ∀ moves, bound ≤ whole.turns moves → (whole.play moves).halted) ∧
    (∀ moves : ℕ → Move,
      (∀ n, ∃ k, n ≤ k ∧ moves k = .step ∧ (whole.after moves k).blocked = false) →
        ∃ n, (whole.after moves n).halted) ∧
    (i.control.holds = false → ∃ fuel, (run fuel whole).halted) := by
  intro whole
  obtain ⟨bound, hbound⟩ := ends_of_whileless (whileless_ofProgram i h)
  have hends (moves : List Move) (hle : bound ≤ whole.turns moves) : (whole.play moves).halted :=
    hbound i.control moves hle
  refine ⟨⟨bound, hends⟩, fun moves hmoves => ?_, fun hholds => ⟨bound, ?_⟩⟩
  · obtain ⟨n, hn⟩ := exists_le_turns hmoves bound
    exact ⟨n, hends _ hn⟩
  · rw [← play_replicate]
    exact hends _ (turns_replicate hholds bound).ge

/-- A procedure that calls itself twice in each of three rounds. -/
theorem halted_of_whileless_recursion :
    let call : Node := .node (.keyword "do") [.leaf ⟨.name, "p"⟩, .leaf (.keyword "list")]
    let loop : Node := .node (.keyword "repeat")
      [.leaf ⟨.number, "3"⟩, .node (.keyword "block") [call, .leaf (.keyword "home"), call]]
    let definition : Node := .node (.keyword "def")
      [.node (.keyword "header") [.leaf ⟨.name, "p"⟩, .leaf (.keyword "list")],
        .node (.keyword "block") [loop]]
    let program : Node := .node (.keyword "program")
      [.node (.keyword "block") [call], .node (.keyword "list") [definition]]
    let whole : Machine Walker := .ofProgram (.new .centered (.ofSettings {})) program
    program.Whileless ∧ (∃ bound, ∀ moves, bound ≤ whole.turns moves → (whole.play moves).halted) ∧
      ∃ fuel, (run fuel whole).halted := by
  intro call loop definition program whole
  have hwhileless : program.Whileless := by decide
  obtain ⟨hbound, -, hfuel⟩ :=
    halted_of_whileless hwhileless (.new Walker.centered (.ofSettings {}))
  exact ⟨hwhileless, hbound, hfuel (by decide)⟩

end Machine

end Logo
