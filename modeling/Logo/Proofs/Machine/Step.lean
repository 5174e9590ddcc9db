import Logo.Proofs.Machine.Effects
import Logo.Proofs.Machine.Play
import Mathlib.Logic.Function.Iterate

/-!
# What a step of a machine does

A step takes the first task and puts in its place what the task unfolds to, or ends the run.

* `Machine.turn_step`: every step is one of the four kinds of `Machine.Turn`.
* `Machine.prompt_play`, `Machine.nested_play`: in a run of a script an action is carried out as soon
  as it is left, and the frames are those of the calls that are still to be left.
* `Machine.lockstep`: two machines that no script can tell apart stay so, as long as they read the
  same in the running flag and wait alike.  `Machine.lockstep_of_popsWithin` is about machines that
  only look alike, for steps that leave no more calls than the relation bears.
-/

namespace Logo

variable {A B : Type}

/-! ## Kinds of steps -/

/-- What a task is replaced with, and what becomes of the interpreter.  Any task that is no action
and leaves no call may be dropped. -/
inductive Task.Unfolds [Actuator A] (i : Interpreter A) : Task → List Task → Interpreter A → Prop
  /-- A node is executed. -/
  | executed {node : Node} {tasks : List Task} {i' : Interpreter A}
    (h : Effect.Leaves node i tasks i') : Unfolds i (.exec node) tasks i'
  /-- An action is carried out. -/
  | performed (action : Action) :
    Unfolds i (.act action) [] { i with actuator := Actuator.perform action i.actuator }
  /-- A call is left. -/
  | left : Unfolds i .leave [] { i with scope := i.scope.pop 1 }
  /-- A counted loop begins a round. -/
  | round (count : Nat) (body : Node) :
    Unfolds i (.rounds (count + 1) body) [.exec body, .rounds count body] i
  /-- A conditional loop begins a pass. -/
  | pass (condition body : Node) : Unfolds i (.loop condition body) [.exec body, .loop condition body] i
  /-- Nothing is done. -/
  | dropped {task : Task} (hact : ∀ action, task ≠ .act action) (hleave : task ≠ .leave) :
    Unfolds i task [] i

lemma Task.not_isLeave {task : Task} (h : task ≠ .leave) : ¬ task.isLeave := by
  cases task with
  | leave => exact absurd rfl h
  | _ => exact Bool.false_ne_true

namespace Progress

/-- The tasks that are left. -/
def pending : Progress → List Task
  | .working tasks => tasks
  | .finished _ => []
  | .failed _ => []

@[simp] lemma pending_working (tasks : List Task) : (working tasks).pending = tasks := rfl

@[simp] lemma pending_finished (outcome : Outcome) : (finished outcome).pending = [] := rfl

@[simp] lemma pending_failed (e : RuntimeError) : (failed e).pending = [] := rfl

end Progress

namespace Machine

/-- The kinds of steps. -/
inductive Turn [Actuator A] (m : Machine A) : Machine A → Prop
  /-- Nothing happens, because the run is over or waits. -/
  | still (h : m.halted ∨ m.blocked) : Turn m m
  /-- There is no task left, and the outcome is told. -/
  | ended (h : m.progress = .working []) :
    Turn m { m with
      progress := .finished (if m.interpreter.control.running then .completed else .stopped) }
  /-- The first task is replaced. -/
  | unfolded {task : Task} {rest tasks : List Task} {i : Interpreter A}
    (h : m.progress = .working (task :: rest)) (hunfolds : task.Unfolds m.interpreter tasks i) :
    Turn m ⟨i, .working (tasks ++ rest)⟩
  /-- An error ends the run. -/
  | failed {task : Task} {rest : List Task} (h : m.progress = .working (task :: rest))
    (hleave : task ≠ .leave) (procedures : Table Procedure) (e : RuntimeError) :
    Turn m (fail ⟨{ m.interpreter with procedures }, m.progress⟩ e rest)

section Turns

variable [Actuator A]

lemma turn_perform {m : Machine A} {task : Task} {rest : List Task}
    (h : m.progress = .working (task :: rest)) : Turn m (m.perform rest task) := by
  have hdropped (hact : ∀ action, task ≠ .act action) (hleave : task ≠ .leave) :
      Turn m (m.withTasks rest) := .unfolded h (.dropped hact hleave)
  cases task with
  | exec node =>
    rw [perform]
    split
    · cases hexec : Effect.exec node m.interpreter with
      | ok tasks i => exact .unfolded h (.executed (Effect.leaves_of_exec hexec))
      | error e i =>
        obtain ⟨procedures, rfl⟩ := Effect.exists_procedures_of_exec hexec
        exact .failed h nofun procedures e
    · exact hdropped nofun nofun
  | act action => exact .unfolded h (.performed action)
  | pace =>
    rw [perform]
    split
    · rename_i hholds
      exact .still (.inr (by simpa [blocked, h] using hholds))
    · exact hdropped nofun nofun
  | rounds count body =>
    cases count with
    | zero => exact hdropped nofun nofun
    | succ count =>
      rw [perform]
      split
      · exact .unfolded h (.round count body)
      · exact hdropped nofun nofun
  | loop condition body =>
    rw [perform]
    split
    · split
      · exact .unfolded h (.pass condition body)
      · exact hdropped nofun nofun
      · exact .failed h nofun m.interpreter.procedures _
    · exact hdropped nofun nofun
  | leave => exact .unfolded h .left

/-- Every step is one of the kinds. -/
theorem turn_step (m : Machine A) : Turn m m.step := by
  unfold step
  split
  · exact .ended ‹_›
  · exact turn_perform ‹_›
  · rename_i hprogress
    exact .still (.inl (by simp [halted, hprogress]))
  · rename_i hprogress
    exact .still (.inl (by simp [halted, hprogress]))

lemma step_of_halted {m : Machine A} (h : m.halted) : m.step = m := by
  unfold halted at h
  unfold step
  split at h
  · cases h
  · simp [*]
  · simp [*]

lemma step_of_blocked {m : Machine A} (h : m.blocked) : m.step = m := by
  unfold blocked at h
  split at h
  · rename_i hprogress
    simp [step, hprogress, perform, h]
  · cases h

/-- A bounded run takes steps; it stops where a step would do nothing. -/
lemma run_eq_iterate (fuel : Nat) (m : Machine A) : run fuel m = step^[fuel] m := by
  induction fuel generalizing m with
  | zero => rfl
  | succ fuel ih =>
    rw [run]
    split
    · rename_i h
      have hstep : m.step = m := by
        rcases Bool.or_eq_true_iff.1 h with h | h
        · exact step_of_halted h
        · exact step_of_blocked h
      exact (Function.iterate_fixed hstep _).symm
    · rw [ih, Function.iterate_succ_apply]

/-- A bounded run may be made in two parts. -/
lemma run_add (first second : Nat) (m : Machine A) :
    run (first + second) m = run second (run first m) := by
  simp only [run_eq_iterate]
  rw [Nat.add_comm, Function.iterate_add_apply]

end Turns

end Machine

/-! ## What steps leave alone -/

namespace Scope

lemma length_locals_withCurrent (s : Scope) (frame : Frame) :
    (s.withCurrent frame).locals.length = s.locals.length := by
  unfold withCurrent
  split <;> simp [*]

/-- An assignment enters no frame and leaves none. -/
lemma length_locals_store (s : Scope) (name : String) (value : Float) :
    (s.store name value).locals.length = s.locals.length := by
  unfold store
  split_ifs
  · exact s.length_locals_withCurrent _
  · rfl
  · exact s.length_locals_withCurrent _

end Scope

namespace Effect.Leaves

variable {node : Node} {i i' : Interpreter A} {tasks : List Task}

lemma control_eq (h : Leaves node i tasks i') : i'.control = i.control := by
  cases h <;> rfl

lemma actuator_eq (h : Leaves node i tasks i') : i'.actuator = i.actuator := by
  cases h <;> rfl

/-- An action is the first thing that is left. -/
lemma act_notMem_tail (h : Leaves node i tasks i') (action : Action) :
    .act action ∉ tasks.tail := by
  cases h with
  | nodes _ =>
    intro hmem
    obtain ⟨child, -, hchild⟩ := List.mem_map.1 (List.mem_of_mem_tail hmem)
    cases hchild
  | _ => simp [paced]

/-- A frame is entered for each call that is to be left. -/
lemma length_locals (h : Leaves node i tasks i') :
    i'.scope.locals.length = i.scope.locals.length + tasks.countP Task.isLeave := by
  cases h with
  | @nodes nodes _ =>
    have hcount : (nodes.map Task.exec).countP Task.isLeave = 0 := by
      simp [List.countP_eq_zero, Task.isLeave]
    rw [hcount, Nat.add_zero]
  | assigned name value => exact i.scope.length_locals_store name value
  | call frame _ _ => simp [Scope.push, Task.isLeave]
  | _ => simp [paced, Task.isLeave]

end Effect.Leaves

/-- A task that leaves a call takes a frame away; what takes its place enters as many frames as it
leaves calls. -/
lemma Task.Unfolds.length_locals [Actuator A] {i i' : Interpreter A} {task : Task}
    {tasks : List Task} (h : task.Unfolds i tasks i') :
    i'.scope.locals.length =
      (if task.isLeave then i.scope.locals.length - 1 else i.scope.locals.length) +
        tasks.countP isLeave := by
  cases h with
  | executed hleaves => exact hleaves.length_locals
  | left => simp [Scope.pop, isLeave]
  | dropped _ hleave => rw [if_neg (not_isLeave hleave), List.countP_nil, Nat.add_zero]
  | _ => simp [isLeave]

namespace Machine

variable [Actuator A] {m m' : Machine A}

/-- Only the controller touches the control. -/
lemma Turn.control_eq (h : Turn m m') : m'.interpreter.control = m.interpreter.control := by
  cases h with
  | unfolded _ hunfolds =>
    cases hunfolds with
    | executed hleaves => exact hleaves.control_eq
    | _ => rfl
  | _ => rfl

lemma control_step (m : Machine A) : m.step.interpreter.control = m.interpreter.control :=
  m.turn_step.control_eq

/-- The actions recorded so far. -/
def calls (m : Machine (Recorder A)) : List Action := m.interpreter.actuator.calls.toList

/-- Nothing that was recorded is lost. -/
lemma Turn.prefix_calls {m m' : Machine (Recorder A)} (h : Turn m m') : m.calls <+: m'.calls := by
  cases h with
  | unfolded _ hunfolds =>
    cases hunfolds with
    | executed hleaves => simp [calls, hleaves.actuator_eq]
    | performed action => simp [calls, Actuator.perform]
    | _ => exact List.prefix_rfl
  | _ => exact List.prefix_rfl

lemma prefix_calls_run (m : Machine (Recorder A)) {fuel fuel' : Nat} (h : fuel ≤ fuel') :
    (run fuel m).calls <+: (run fuel' m).calls := by
  obtain ⟨more, rfl⟩ := Nat.exists_eq_add_of_le h
  induction more with
  | zero => exact List.prefix_rfl
  | succ more ih =>
    rw [← Nat.add_assoc, run_add]
    refine (ih (Nat.le_add_right _ _)).trans ?_
    rw [run_eq_iterate 1]
    exact (turn_step _).prefix_calls

/-! ## Actions come first, and calls are left in order -/

/-- Behind the first task there is no action. -/
def Prompt (m : Machine A) : Prop := ∀ action, .act action ∉ m.progress.pending.tail

/-- The frames are as many as the calls to be left, and a number of others. -/
def Nested (others : Nat) (m : Machine A) : Prop :=
  m.interpreter.scope.locals.length = others + m.progress.pending.countP Task.isLeave

lemma Turn.prompt (h : Turn m m') (hm : m.Prompt) : m'.Prompt := by
  cases h with
  | still _ => exact hm
  | ended _ => exact fun _ => List.not_mem_nil
  | @unfolded task rest tasks i hprogress hunfolds =>
    have hrest (action : Action) : .act action ∉ rest := by
      simpa [Prompt, hprogress] using hm action
    have htasks (action : Action) : .act action ∉ tasks.tail := by
      cases hunfolds with
      | executed hleaves => exact hleaves.act_notMem_tail action
      | _ => simp
    intro action hmem
    cases tasks with
    | nil => exact hrest action (List.mem_of_mem_tail hmem)
    | cons first others =>
      rcases List.mem_append.1 hmem with hmem | hmem
      · exact htasks action hmem
      · exact hrest action hmem
  | failed _ _ _ _ => exact fun _ => List.not_mem_nil

lemma Turn.nested {others : Nat} (h : Turn m m') (hm : m.Nested others) : m'.Nested others := by
  cases h with
  | still _ => exact hm
  | ended hprogress => simpa [Nested, hprogress] using hm
  | @unfolded task rest tasks i hprogress hunfolds =>
    simp only [Nested, hprogress, Progress.pending_working, List.countP_cons, List.countP_append]
      at hm ⊢
    rw [hunfolds.length_locals]
    by_cases hleave : task.isLeave
    · rw [if_pos hleave] at hm ⊢
      omega
    · rw [if_neg hleave] at hm ⊢
      omega
  | @failed task rest hprogress hleave procedures e =>
    simp only [Nested, hprogress, Progress.pending_working] at hm
    rw [List.countP_cons_of_neg (Task.not_isLeave hleave)] at hm
    simp only [Nested, fail, Interpreter.unwind, Scope.pop, List.length_drop, Progress.pending_failed,
      List.countP_nil]
    omega

/-- At every moment of a run of a script, an action is the next task if it is a task at all. -/
theorem prompt_play (i : Interpreter A) (program : Node) (moves : List Move) :
    ((ofProgram i program).play moves).Prompt :=
  play_invariant (by simp [Prompt, ofProgram]) (fun m h => m.turn_step.prompt h) (fun _ _ h => h) moves

/-- At every moment of a run of a script, the frames are those of the calls to be left. -/
theorem nested_play (i : Interpreter A) (program : Node) (moves : List Move) :
    ((ofProgram i program).play moves).Nested 0 :=
  play_invariant (show (ofProgram i program).Nested 0 from rfl) (fun m h => m.turn_step.nested h)
    (fun _ _ h => h) moves

end Machine

/-! ## Two machines side by side -/

/-- Whether the first step of a task reads the running flag. -/
def Task.reads : Task → Bool
  | .exec _ => true
  | .act _ => false
  | .pace => true
  | .rounds count _ => count ≠ 0
  | .loop _ _ => true
  | .leave => false

/-- Whether the next step reads the running flag. -/
def Progress.reads : Progress → Bool
  | .working [] => true
  | .working (task :: _) => task.reads
  | .finished _ => false
  | .failed _ => false

namespace Machine

/-- What the next step reads in the running flag, if it reads it. -/
def reading? (m : Machine A) : Option Bool :=
  if m.progress.reads then some m.interpreter.control.running else none

/-- Two machines have come as far as each other, with related interpreters. -/
structure Abreast (R : Interpreter A → Interpreter B → Prop) (m : Machine A) (m' : Machine B) :
    Prop where
  interpreter : R m.interpreter m'.interpreter
  progress : m.progress = m'.progress

variable [Actuator A] [Actuator B]

section Lockstep

variable {R : Interpreter A → Interpreter B → Prop}

/-- The relation survives that up to a number of calls are left, where the first interpreter has as
many frames as the given one. -/
def PopsWithin (R : Interpreter A → Interpreter B → Prop) (i : Interpreter A) (calls : Nat) :
    Prop :=
  ∀ i' j', R i' j' → i'.scope.locals.length = i.scope.locals.length → ∀ count ≤ calls,
    R { i' with scope := i'.scope.pop count } { j' with scope := j'.scope.pop count }

lemma lockstep_perform (hR : Interpreter.Lookalikes R) {i : Interpreter A} {j : Interpreter B}
    (hij : R i j) (task : Task) (rest : List Task)
    (hpop : PopsWithin R i ((task :: rest).countP Task.isLeave))
    (hrunning : task.reads → i.control.running = j.control.running)
    (hholds : task = .pace → i.control.holds = j.control.holds) :
    Abreast R ((⟨i, .working (task :: rest)⟩ : Machine A).perform rest task)
      ((⟨j, .working (task :: rest)⟩ : Machine B).perform rest task) := by
  have hrest : rest.countP Task.isLeave ≤ (task :: rest).countP Task.isLeave :=
    (List.sublist_cons_self task rest).countP_le
  cases task with
  | exec node =>
    simp only [perform, hrunning rfl]
    split
    · rcases (Effect.parallel_exec hR node i j hij).cases with
        ⟨tasks, i', j', hi, hj, hij'⟩ | ⟨e, i', j', hi, hj, hij'⟩
      · rw [hi, hj]
        exact ⟨hij', rfl⟩
      · obtain ⟨procedures, rfl⟩ := Effect.exists_procedures_of_exec hi
        rw [hi, hj]
        exact ⟨hpop _ _ hij' rfl _ hrest, rfl⟩
    · exact ⟨hij, rfl⟩
  | act action => exact ⟨hR.perform hij action, rfl⟩
  | pace =>
    simp only [perform, hholds rfl]
    split <;> exact ⟨hij, rfl⟩
  | rounds count body =>
    cases count with
    | zero => exact ⟨hij, rfl⟩
    | succ count =>
      simp only [perform, hrunning rfl]
      exact ⟨hij, rfl⟩
  | loop condition body =>
    simp only [perform, hrunning rfl, hR.surroundings hij]
    split
    · split
      · exact ⟨hij, rfl⟩
      · exact ⟨hij, rfl⟩
      · exact ⟨hpop _ _ hij rfl _ hrest, rfl⟩
    · exact ⟨hij, rfl⟩
  | leave => exact ⟨hpop _ _ hij rfl 1 (by simp [Task.isLeave]), rfl⟩

/-- Machines that look alike to a script stay so, as long as they read the same and wait alike, and
no more calls are left than the relation bears. -/
theorem lockstep_of_popsWithin (hR : Interpreter.Lookalikes R) {m : Machine A} {m' : Machine B}
    (h : Abreast R m m')
    (hpop : PopsWithin R m.interpreter (m.progress.pending.countP Task.isLeave))
    (hreading : m.reading? = m'.reading?) (hblocked : m.blocked = m'.blocked) :
    Abreast R m.step m'.step := by
  obtain ⟨i, progress⟩ := m
  obtain ⟨j, progress'⟩ := m'
  obtain ⟨hij, hprogress⟩ := h
  dsimp only at hij hprogress
  subst hprogress
  have hrunning (hreads : progress.reads) : i.control.running = j.control.running := by
    simpa [reading?, hreads] using hreading
  match progress with
  | .working [] => exact ⟨hij, by simp [step, hrunning rfl]⟩
  | .working (task :: rest) =>
    refine lockstep_perform hR hij task rest hpop hrunning ?_
    rintro rfl
    exact hblocked
  | .finished _ => exact ⟨hij, rfl⟩
  | .failed _ => exact ⟨hij, rfl⟩

/-- Machines that no script can tell apart stay so, as long as they read the same and wait alike. -/
theorem lockstep (hR : Interpreter.Twins R) {m : Machine A} {m' : Machine B} (h : Abreast R m m')
    (hreading : m.reading? = m'.reading?) (hblocked : m.blocked = m'.blocked) :
    Abreast R m.step m'.step :=
  lockstep_of_popsWithin hR.toLookalikes h (fun _ _ hij _ count _ => hR.pop hij count) hreading
    hblocked

end Lockstep

end Machine

end Logo
