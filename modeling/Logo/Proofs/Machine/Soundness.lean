import Logo.Proofs.Contract
import Logo.Proofs.Grammar.Completeness.Program
import Logo.Proofs.Machine.Ordinary
import Logo.Proofs.Machine.Play

/-!
# Scripts that were parsed do not go wrong

A machine looks at texts and numbers of children when it executes a node, and has an error ready for
everything that means nothing.  A script that was parsed never runs into one of these.

* `Effect.Keeps`: an effect leaves the procedures in order and fails in an ordinary way only.
* `Effect.keeps_exec`: so does the execution of a node that has the shape of a script, a block or a
  command, and what it leaves to be done is in order too.
* `Machine.sound_step`: steps keep the invariant `Machine.Sound` of runs; actions of the controller
  do not touch it.
* `Machine.ordinary_of_parse`: whatever the actuator and the controller do, a script that was parsed
  meets ordinary errors only.
-/

namespace Logo

open Grammar

/-! ## Interpreters and tasks in order -/

variable {A : Type}

/-- The bodies of all procedures are blocks. -/
def Interpreter.Sound (i : Interpreter A) : Prop :=
  ∀ entry ∈ i.procedures.entries, Shaped .block entry.2.body

/-- Whether a node can be executed, as far as its shape tells. -/
def Executable (node : Node) : Prop := ∃ part ∈ [.script, .block, .command], Shaped part node

lemma executable_block {b : Node} (h : Shaped .block b) : Executable b := ⟨.block, by decide, h⟩

lemma executable_command {c : Node} (h : Shaped .command c) : Executable c := ⟨.command, by decide, h⟩

lemma Interpreter.Sound.executable_body {i : Interpreter A} (h : i.Sound) {name : String}
    {procedure : Procedure} (hfind : i.procedures.find? name = some procedure) :
    Executable procedure.body := by
  obtain ⟨front, back, hentries, -⟩ := List.lookup_eq_some_iff.1 hfind
  exact executable_block (h (name, procedure) (by simp [hentries]))

/-- Whether a task can be done, as far as the shapes of its nodes tell. -/
def Task.Sound : Task → Prop
  | .exec node => Executable node
  | .act _ => True
  | .pace => True
  | .rounds _ body => Shaped .block body
  | .loop condition body => Shaped .condition condition ∧ Shaped .block body
  | .leave => True

/-- Whether all tasks can be done. -/
def TasksSound (tasks : List Task) : Prop := ∀ task ∈ tasks, task.Sound

/-! ## Effects -/

namespace Effect

open Fallible

variable {α β : Type}

/-- An effect that keeps an interpreter in order, answers as it should and fails in an ordinary way
only. -/
def Keeps (x : Effect A α) (Q : α → Prop) : Prop :=
  ∀ i : Interpreter A, i.Sound → Meets x i (fun v i' => i'.Sound ∧ Q v) fun e _ => e.Ordinary

variable {x : Effect A α} {f : α → Effect A β} {Q : α → Prop} {Q' : β → Prop}

lemma keeps_pure {v : α} (h : Q v) : Keeps (pure v : Effect A α) Q := fun _ hi => ⟨hi, h⟩

lemma keeps_throw {e : RuntimeError} (h : e.Ordinary) : Keeps (throw e : Effect A α) Q :=
  fun _ _ => h

lemma keeps_throw_bind {e : RuntimeError} (h : e.Ordinary) :
    Keeps (throw e >>= f : Effect A β) Q' := fun _ _ => h

lemma Keeps.bind (hx : Keeps x Q) (hf : ∀ v, Q v → Keeps (f v) Q') : Keeps (x >>= f) Q' :=
  fun i hi => (hx i hi).bind (fun _ _ he => he) fun v i' h => hf v h.2 i' h.1

lemma Keeps.mono {Q' : α → Prop} (hx : Keeps x Q) (hQ : ∀ v, Q v → Q' v) : Keeps x Q' :=
  fun i hi => (hx i hi).mono (fun v _ h => ⟨h.1, hQ v h.2⟩) fun _ _ he => he

lemma keeps_get : Keeps (get : Effect A (Interpreter A)) Interpreter.Sound := fun _ hi => ⟨hi, hi⟩

lemma keeps_modify {g : Interpreter A → Interpreter A} (h : ∀ i, i.Sound → (g i).Sound) :
    Keeps (modify g : Effect A PUnit) fun _ => True := fun i hi => ⟨h i hi, trivial⟩

lemma keeps_lift {x : Fallible α} (h : Ordinary x) :
    Keeps (lift x : Effect A α) fun v => x = .ok v := by
  cases x with
  | ok v => exact keeps_pure rfl
  | error e => exact keeps_throw (h e rfl)

/-- Taking apart a node that has the children it must have. -/
lemma keeps_children {v : α} : Keeps (lift (.ok v) : Effect A α) fun w => w = v := keeps_pure rfl

lemma tasksSound_paced (action : Action) : TasksSound (paced action) := by
  simp [TasksSound, paced, Task.Sound]

/-- A definition registers its block. -/
lemma keeps_register {definitions : List Node} (h : ∀ d ∈ definitions, Shaped .definition d) :
    Keeps (register definitions : Effect A Unit) fun _ => True := by
  induction definitions with
  | nil => exact keeps_pure trivial
  | cons d definitions ih =>
    obtain ⟨hd, hrest⟩ := List.forall_mem_cons.1 h
    cases hd with
    | definition hx hxs hb =>
      refine keeps_children.bind ?_
      rintro _ rfl
      refine (keeps_modify fun i hi entry hentry => ?_).bind fun _ _ => ih hrest
      rcases List.mem_cons.1 hentry with rfl | hentry
      · exact hb
      · exact hi entry (List.mem_filter.1 hentry).1

variable [Actuator A]

lemma keeps_expression {node : Node} (h : Shaped .expression node) :
    Keeps (expression node : Effect A Float) fun _ => True :=
  keeps_get.bind fun i _ => (keeps_lift (i.surroundings.ordinary_expression h)).mono fun _ _ => trivial

lemma keeps_condition {node : Node} (h : Shaped .condition node) :
    Keeps (condition node : Effect A Bool) fun _ => True :=
  keeps_get.bind fun i _ => (keeps_lift (i.surroundings.ordinary_condition h)).mono fun _ _ => trivial

section Commands

variable {t : Token} {x y z b c : Node}

lemma keeps_move (action : Float → Action) (hx : Shaped .expression x) :
    Keeps (move (.node t [x]) action : Effect A (List Task)) TasksSound := by
  refine keeps_children.bind ?_
  rintro _ rfl
  exact (keeps_expression hx).bind fun _ _ => keeps_pure (tasksSound_paced _)

omit [Actuator A] in
lemma keeps_bare (action : Action) :
    Keeps (bare (.leaf t) action : Effect A (List Task)) TasksSound :=
  keeps_children.bind fun _ _ => keeps_pure (tasksSound_paced _)

lemma keeps_color (hx : Shaped .expression x) (hy : Shaped .expression y)
    (hz : Shaped .expression z) :
    Keeps (color (.node t [x, y, z]) : Effect A (List Task)) TasksSound := by
  refine keeps_children.bind ?_
  rintro _ rfl
  refine (keeps_expression hx).bind fun r _ => (keeps_expression hy).bind fun g _ =>
    (keeps_expression hz).bind fun b _ => ?_
  exact (keeps_lift (ordinary_colorComponent r)).bind fun _ _ =>
    (keeps_lift (ordinary_colorComponent g)).bind fun _ _ =>
    (keeps_lift (ordinary_colorComponent b)).bind fun _ _ => keeps_pure (tasksSound_paced _)

lemma keeps_jump (hx : Shaped .expression x) (hy : Shaped .expression y) :
    Keeps (jump (.node t [x, y]) : Effect A (List Task)) TasksSound := by
  refine keeps_children.bind ?_
  rintro _ rfl
  exact (keeps_expression hx).bind fun _ _ => (keeps_expression hy).bind fun _ _ =>
    keeps_pure (tasksSound_paced _)

lemma keeps_assignment {name : Token} (hname : name.kind = .name) (hx : Shaped .expression x) :
    Keeps (assignment (.node t [.leaf name, x]) : Effect A (List Task)) TasksSound := by
  refine keeps_children.bind ?_
  rintro _ rfl
  have hkind : ¬ Node.kind (.leaf name) ≠ .name := not_not.2 hname
  simp only [if_neg hkind]
  refine (keeps_expression hx).bind fun value _ => (keeps_modify fun i hi => ?_).bind fun _ _ => keeps_pure ?_
  · exact hi
  · simp [TasksSound]

lemma keeps_repetition (hx : Shaped .expression x) (hb : Shaped .block b) :
    Keeps (repetition (.node t [x, b]) : Effect A (List Task)) TasksSound := by
  refine keeps_children.bind ?_
  rintro _ rfl
  refine (keeps_expression hx).bind fun value _ => 
    (keeps_lift (ordinary_loopCount value)).bind fun count _ => keeps_pure ?_
  simpa [TasksSound, Task.Sound] using hb

omit [Actuator A] in
lemma keeps_whileLoop (hx : Shaped .condition x) (hb : Shaped .block b) :
    Keeps (whileLoop (.node t [x, b]) : Effect A (List Task)) TasksSound := by
  refine keeps_children.bind ?_
  rintro _ rfl
  refine keeps_pure ?_
  simpa [TasksSound, Task.Sound] using ⟨hx, hb⟩

lemma keeps_choice (t : Token) (hx : Shaped .condition x) (hb : Executable b) :
    Keeps (choice (.node t [x, b]) : Effect A (List Task)) TasksSound := by
  refine (keeps_condition hx).bind fun chosen _ => keeps_pure ?_
  cases chosen
  · simp [TasksSound]
  · simpa [TasksSound, Task.Sound] using hb

lemma keeps_choiceElse (t : Token) (hx : Shaped .condition x) (hb : Executable b) (hc : Executable c) :
    Keeps (choice (.node t [x, b, c]) : Effect A (List Task)) TasksSound := by
  refine (keeps_condition hx).bind fun chosen _ => keeps_pure ?_
  cases chosen
  · simpa [TasksSound, Task.Sound] using hc
  · simpa [TasksSound, Task.Sound] using hb

lemma keeps_bind {arguments : List (String × Node)} (frame : Frame)
    (h : ∀ argument ∈ arguments, Shaped .expression argument.2) :
    Keeps (Effect.bind frame arguments : Effect A Frame) fun _ => True := by
  induction arguments generalizing frame with
  | nil => exact keeps_pure trivial
  | cons argument arguments ih =>
    obtain ⟨hargument, hrest⟩ := List.forall_mem_cons.1 h
    exact (keeps_expression hargument).bind fun value _ => ih _ hrest

lemma keeps_call {name list : Token} {arguments : List Node}
    (h : ∀ argument ∈ arguments, Shaped .expression argument) :
    Keeps (call (.node t [.leaf name, .node list arguments]) : Effect A (List Task)) TasksSound := by
  refine keeps_children.bind ?_
  rintro _ rfl
  refine keeps_get.bind fun i hi => ?_
  dsimp only
  split
  · exact keeps_throw trivial
  · rename_i procedure hfind
    have hbody : Executable procedure.body := hi.executable_body hfind
    split
    · exact keeps_throw_bind ‹_›
    · refine (keeps_bind .empty fun pair hpair => h pair.2 (List.of_mem_zip hpair).2).bind
        fun frame _ => ?_
      split
      · exact keeps_throw_bind rfl
      · refine (keeps_modify fun i hi => ?_).bind fun _ _ => keeps_pure ?_
        · exact hi
        · simpa [TasksSound, Task.Sound] using hbody

end Commands

/-- Executing what is executable fails in an ordinary way only. -/
theorem keeps_exec {node : Node} (h : Executable node) :
    Keeps (exec node : Effect A (List Task)) TasksSound := by
  obtain ⟨part, hpart, hshaped⟩ := h
  cases hshaped with
  | script hb hds =>
    refine keeps_children.bind ?_
    rintro _ rfl
    refine (keeps_register hds).bind fun _ _ => keeps_pure ?_
    simpa [TasksSound, Task.Sound] using executable_block hb
  | block hcs =>
    refine keeps_pure fun task htask => ?_
    obtain ⟨c, hc, rfl⟩ := List.mem_map.1 htask
    exact executable_command (hcs c hc)
  | move hw ht =>
    simp only [moveWords, List.mem_cons, List.not_mem_nil, or_false] at hw
    rcases hw with rfl | rfl | rfl | rfl
    · exact keeps_move .forward ht
    · exact keeps_move .right ht
    · exact keeps_move .left ht
    · exact keeps_move .face ht
  | bare hw =>
    simp only [bareWords, List.mem_cons, List.not_mem_nil, or_false] at hw
    rcases hw with rfl | rfl | rfl
    · exact keeps_bare .penUp
    · exact keeps_bare .penDown
    · exact keeps_bare .home
  | color hr hg hb => exact keeps_color hr hg hb
  | jump hx hy => exact keeps_jump hx hy
  | assignment hx ht => exact keeps_assignment hx ht
  | repetition ht hb => exact keeps_repetition ht hb
  | whileLoop ht hb => exact keeps_whileLoop ht hb
  | choice ht hb => exact keeps_choice (.keyword "if") ht (executable_block hb)
  | choiceElse ht hb hc => exact keeps_choiceElse (.keyword "if") ht (executable_block hb) (executable_block hc)
  | call hx hts => exact keeps_call hts
  | _ => simp at hpart

end Effect

/-! ## Machines -/

namespace Machine

/-- What holds of the machine of a script that was parsed, at every moment of its run. -/
def Sound (m : Machine A) : Prop :=
  match m.progress with
  | .working tasks => m.interpreter.Sound ∧ TasksSound tasks
  | .finished _ => True
  | .failed e => e.Ordinary

lemma sound_control {m : Machine A} (h : m.Sound) (action : ControlAction) :
    (m.control action).Sound := h

lemma sound_withTasks {m : Machine A} {tasks : List Task} (hi : m.interpreter.Sound)
    (htasks : TasksSound tasks) : (m.withTasks tasks).Sound := ⟨hi, htasks⟩

/-- A run begins in order, for it begins without procedures. -/
lemma sound_ofProgram (i : Interpreter A) {t : Node} (h : Shaped .script t) :
    (ofProgram i t).Sound := by
  have hi : i.cleared.Sound := by simp [Interpreter.Sound, Interpreter.cleared, Table.empty]
  have ht : Executable t := ⟨.script, by decide, h⟩
  exact ⟨hi, by simpa [TasksSound, Task.Sound] using ht⟩

variable [Actuator A]

/-- Doing the first part of a task. -/
lemma sound_perform {m : Machine A} {task : Task} {rest : List Task} (hm : m.Sound)
    (hi : m.interpreter.Sound) (htask : task.Sound) (hrest : TasksSound rest) :
    (m.perform rest task).Sound := by
  cases task with
  | exec node =>
    rw [perform]
    split
    · have hexec := Effect.keeps_exec htask m.interpreter hi
      cases hresult : Effect.exec node m.interpreter with
      | ok tasks i =>
        obtain ⟨hinterpreter, htasks⟩ := hexec.of_ok hresult
        exact ⟨hinterpreter, List.forall_mem_append.2 ⟨htasks, hrest⟩⟩
      | error e i => exact hexec.of_error hresult
    · exact sound_withTasks hi hrest
  | act action => exact sound_withTasks hi hrest
  | pace =>
    rw [perform]
    split
    · exact hm
    · exact sound_withTasks hi hrest
  | rounds count body =>
    cases count with
    | zero => exact sound_withTasks hi hrest
    | succ count =>
      refine sound_withTasks hi ?_
      split
      · exact List.forall_mem_cons.2 ⟨executable_block htask, List.forall_mem_cons.2 ⟨htask, hrest⟩⟩
      · exact hrest
  | loop condition body =>
    rw [perform]
    split
    · split
      · exact sound_withTasks hi (List.forall_mem_cons.2
          ⟨executable_block htask.2, List.forall_mem_cons.2 ⟨htask, hrest⟩⟩)
      · exact sound_withTasks hi hrest
      · rename_i e hresult
        exact m.interpreter.surroundings.ordinary_condition htask.1 e hresult
    · exact sound_withTasks hi hrest
  | leave => exact ⟨hi, hrest⟩

/-- A step keeps a run in order. -/
theorem sound_step {m : Machine A} (h : m.Sound) : m.step.Sound := by
  have hm := h
  unfold Sound at h
  unfold step
  split
  · trivial
  · rename_i task rest hprogress
    rw [hprogress] at h
    obtain ⟨htask, hrest⟩ := List.forall_mem_cons.1 h.2
    exact sound_perform hm h.1 htask hrest
  · exact hm
  · exact hm

/-- A script that was parsed meets ordinary errors only, whatever its actuator does, whatever the
controller does and however long it runs: no node is malformed or without a meaning, and every
assignment is to a name. -/
theorem ordinary_of_parse {source : String} {t : Node} (hparse : parse source = .ok t)
    (i : Interpreter A) (moves : List Move) {e : RuntimeError}
    (hfailed : ((ofProgram i t).play moves).progress = .failed e) : e.Ordinary := by
  have hshaped := (parse_sound hparse).shaped
  have hsound := play_invariant (sound_ofProgram i hshaped) (fun _ => sound_step)
    (fun _ action h => sound_control h action) moves
  unfold Sound at hsound
  rwa [hfailed] at hsound

/-- A call of a procedure that is not defined. -/
theorem ordinary_of_parse_undefined :
    let t : Node := .node (.keyword "program")
      [.node (.keyword "block") [.node (.keyword "do") [.leaf ⟨.name, "f"⟩, .leaf (.keyword "list")]],
        .leaf (.keyword "list")]
    let m : Machine Walker := .ofProgram (.new .centered (.ofSettings {})) t
    parse "do f\n" = .ok t ∧
      (m.play (.replicate 4 .step)).progress = .failed (.undefinedProcedure "f") ∧
      (RuntimeError.undefinedProcedure "f").Ordinary := by
  intro t m
  have hparse : parse "do f\n" = .ok t := by decide +kernel
  have hfailed : (m.play (.replicate 4 .step)).progress = .failed (.undefinedProcedure "f") := rfl
  exact ⟨hparse, hfailed, ordinary_of_parse hparse _ _ hfailed⟩

end Machine

end Logo
