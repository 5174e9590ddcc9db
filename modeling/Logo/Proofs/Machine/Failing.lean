import Logo.Proofs.Machine.Callers
import Logo.Proofs.Machine.Calls

/-!
# Statements that fail

A statement looks at everything it needs before it does the one thing that it is there for: it counts its
operands, evaluates them and checks their values, and none of this leaves a trace.  So a statement that
fails has done nothing, if no body was entered.

That a check comes first is a matter of a single step (`Effect.eq_of_exec_eq_error`).  What remains is
that a statement whose checks went well cannot fail later, unless it executes another node first.

* `Machine.not_failed_of_sure`: tasks do not fail before a node among them is executed, if no condition
  is to be tested before that.
* `Machine.traceless_of_ready`: a node that fails without executing another one.
* `Machine.exec_notMem_tail_of_simple`: a simple statement executes no other node.
* `Machine.traceless_of_statement`: so whatever statement fails before its body, everything is as it was.
-/

namespace Logo

variable {A : Type}

/-! ## Statements -/

/-- The words of statements that do one thing and have no body. -/
def simpleWords : List String :=
  ["forward", "right", "left", "face", "penup", "pendown", "home", "jump", "color", "set"]

/-- The words of statements that have a body. -/
def compoundWords : List String := ["repeat", "while", "if", "do"]

namespace Machine

/-! ## What the steps of a play work at -/

/-- The task that the next step works at, if there is one left. -/
def task? (m : Machine A) : Option Task := m.progress.pending.head?

variable [Actuator A]

/-- The tasks that the steps of a play work at, in order. -/
def tasks (m : Machine A) : List Move → List Task
  | [] => []
  | .step :: moves => m.task?.toList ++ m.step.tasks moves
  | .control action :: moves => (m.control action).tasks moves

/-- A play has left everything as it was, but for what the controller did to the flags: no variable, no
procedure and no actuator has changed, no action was carried out, and the run has not come to a wait. -/
structure Traceless (i : Interpreter A) (m : Machine A) (moves : List Move) : Prop where
  interpreter : i.AgreesUpToControl (m.play moves).interpreter
  actions : m.actions moves = []
  pace : .pace ∉ m.tasks moves

variable {i : Interpreter A} {m : Machine A} {node : Node} {moves : List Move}

lemma Traceless.step (h : Traceless i m.step moves) (haction : m.action? = none)
    (hpace : m.task? ≠ some .pace) : Traceless i m (.step :: moves) where
  interpreter := h.interpreter
  actions := by rw [Machine.actions, haction, h.actions]; rfl
  pace := by simp [tasks, hpace, h.pace]

lemma Traceless.control {action : ControlAction} (h : Traceless i (m.control action) moves) :
    Traceless i m (.control action :: moves) := ⟨h.interpreter, h.actions, h.pace⟩

omit [Actuator A] in
lemma agreesUpToControl_control (h : i.AgreesUpToControl m.interpreter) (action : ControlAction) :
    i.AgreesUpToControl (m.control action).interpreter := by
  obtain ⟨c, hc⟩ := h
  exact ⟨c.apply action, by rw [control, hc]⟩

/-- After an error there is nothing but the controller. -/
lemma traceless_of_failed {e : RuntimeError} (hi : i.AgreesUpToControl m.interpreter)
    (hfailed : m.progress = .failed e) (moves : List Move) : Traceless i m moves := by
  induction moves generalizing m with
  | nil => exact ⟨hi, rfl, List.not_mem_nil⟩
  | cons x moves ih =>
    cases x with
    | step =>
      have hstep : m.step = m := step_of_halted (by rw [halted, hfailed])
      exact Traceless.step (hstep.symm ▸ ih hi hfailed) (by rw [action?, hfailed])
        (by simp [task?, hfailed])
    | control action => exact (ih (agreesUpToControl_control hi action) hfailed).control

end Machine

/-! ## Tasks that cannot fail -/

/-- No condition is to be tested before the first node among the tasks is executed. -/
inductive Sure : List Task → Prop
  | nil : Sure []
  | exec (node : Node) (rest : List Task) : Sure (.exec node :: rest)
  | other {task : Task} {rest : List Task} (hloop : ∀ condition body, task ≠ .loop condition body)
    (hrest : Sure rest) : Sure (task :: rest)

/-- A run has not failed, and does not before it executes a node. -/
def Progress.Sure : Progress → Prop
  | .working tasks => Logo.Sure tasks
  | .finished _ => True
  | .failed _ => False

/-- What a node leaves cannot fail before another node is executed, unless it is a loop whose condition is
to be tested for the first time. -/
lemma Effect.Leaves.sure_or_loop {node : Node} {i i' : Interpreter A} {tasks : List Task}
    (h : Leaves node i tasks i') :
    Sure tasks ∨ i' = i ∧ ∃ condition body, tasks = [.loop condition body] := by
  cases h with
  | script _ _ _ => exact .inl (.exec _ _)
  | @nodes nodes _ _ =>
    cases nodes with
    | nil => exact .inl .nil
    | cons first nodes => exact .inl (.exec first _)
  | action action => exact .inl (.other nofun (.other nofun .nil))
  | assigned _ _ => exact .inl .nil
  | rounds _ _ _ => exact .inl (.other nofun .nil)
  | loop condition body _ => exact .inr ⟨rfl, condition, body, rfl⟩
  | call _ _ _ _ => exact .inl (.exec _ _)

namespace Machine

variable [Actuator A] {i : Interpreter A} {m : Machine A} {node : Node} {moves : List Move}

lemma sure_perform {task : Task} {rest : List Task} (hm : m.progress.Sure)
    (hloop : ∀ condition body, task ≠ .loop condition body) (hrest : Sure rest)
    (hexec : ∀ node, task ≠ .exec node) : (m.perform rest task).progress.Sure := by
  cases task with
  | exec node => exact absurd rfl (hexec node)
  | act action => exact hrest
  | pace =>
    rw [perform]
    split
    · exact hm
    · exact hrest
  | rounds count body =>
    cases count with
    | zero => exact hrest
    | succ count =>
      rw [perform]
      split
      · exact .exec body _
      · exact hrest
  | loop condition body => exact absurd rfl (hloop condition body)
  | leave => exact hrest

/-- A step that executes no node does not fail, and what is left does not fail either. -/
lemma sure_step (hm : m.progress.Sure) (hexec : ∀ node, m.task? ≠ some (.exec node)) :
    m.step.progress.Sure := by
  unfold step
  split
  · trivial
  · rename_i task rest hprogress
    have htask (node : Node) : task ≠ .exec node := by simpa [task?, hprogress] using hexec node
    have hsure : Sure (task :: rest) := by rwa [hprogress] at hm
    cases hsure with
    | exec node _ => exact absurd rfl (htask node)
    | other hloop hrest => exact sure_perform hm hloop hrest htask
  · exact hm
  · exact hm

/-- As long as no node is executed, there is no error. -/
theorem not_failed_of_sure (hm : m.progress.Sure) (hexec : ∀ node, .exec node ∉ m.tasks moves)
    (e : RuntimeError) : (m.play moves).progress ≠ .failed e := by
  induction moves generalizing m with
  | nil =>
    intro hfailed
    rw [play_nil] at hfailed
    rwa [hfailed] at hm
  | cons x moves ih =>
    cases x with
    | step =>
      simp only [tasks, List.mem_append, Option.mem_toList, not_or] at hexec
      exact ih (sure_step hm fun node => (hexec node).1) fun node => (hexec node).2
    | control action => exact ih (m := m.control action) hm hexec

/-! ## Failing before another node is executed -/

omit [Actuator A] in
lemma action?_eq_none {task : Task} {rest : List Task} (hprogress : m.progress = .working (task :: rest))
    (haction : ∀ action, task ≠ .act action) : m.action? = none := by
  rw [action?, hprogress]
  cases task with
  | act action => exact absurd rfl (haction action)
  | _ => rfl

/-- Where one task is left, which is no action and no wait, what the controller does first does not matter:
it is enough to look at the play from the first step on. -/
lemma traceless_of_first_step {task : Task} {e : RuntimeError} (hi : i.AgreesUpToControl m.interpreter)
    (hprogress : m.progress = .working [task]) (haction : ∀ action, task ≠ .act action)
    (hpace : task ≠ .pace) (hexec : ∀ node, .exec node ∉ (m.tasks moves).tail)
    (hfailed : (m.play moves).progress = .failed e)
    (hstep : ∀ {m : Machine A} {moves : List Move}, i.AgreesUpToControl m.interpreter →
      m.progress = .working [task] → (∀ node, .exec node ∉ m.step.tasks moves) →
      (m.step.play moves).progress = .failed e → Traceless i m.step moves) :
    Traceless i m moves := by
  induction moves generalizing m with
  | nil =>
    rw [play_nil, hprogress] at hfailed
    cases hfailed
  | cons x moves ih =>
    cases x with
    | step =>
      have htask : m.task? = some task := by rw [task?, hprogress]; rfl
      rw [tasks, htask] at hexec
      exact (hstep hi hprogress hexec hfailed).step (action?_eq_none hprogress haction)
        (by simp [htask, hpace])
    | control action =>
      exact (ih (m := m.control action) (agreesUpToControl_control hi action) hprogress hexec
        hfailed).control

lemma step_loop {condition body : Node} (hprogress : m.progress = .working [.loop condition body]) :
    (∃ e, m.step = ⟨m.interpreter, .failed e⟩) ∨ m.step.progress.Sure := by
  simp only [step, hprogress, perform]
  split
  · split
    · exact .inr (.exec _ _)
    · exact .inr .nil
    · exact .inl ⟨_, rfl⟩
  · exact .inr .nil

/-- A loop whose condition is to be tested for the first time. -/
lemma traceless_of_loop {condition body : Node} {e : RuntimeError}
    (hi : i.AgreesUpToControl m.interpreter) (hprogress : m.progress = .working [.loop condition body])
    (hexec : ∀ node, .exec node ∉ m.tasks moves) (hfailed : (m.play moves).progress = .failed e) :
    Traceless i m moves := by
  have htail (node : Node) : .exec node ∉ (m.tasks moves).tail := mt List.mem_of_mem_tail (hexec node)
  refine traceless_of_first_step hi hprogress nofun nofun htail hfailed ?_
  intro m moves hi hprogress hexec hfailed
  rcases step_loop hprogress with ⟨e', hstep⟩ | hsure
  · rw [hstep]
    exact traceless_of_failed (m := ⟨m.interpreter, .failed e'⟩) hi rfl moves
  · exact absurd hfailed (not_failed_of_sure hsure hexec e)

lemma step_ready (hhead : Head.ofText? node.text ≠ some .program)
    (hprogress : m.progress = .working [.exec node]) :
    (∃ e, m.step = ⟨m.interpreter, .failed e⟩) ∨ m.step.progress.Sure ∨
      m.step.interpreter = m.interpreter ∧
        ∃ condition body, m.step.progress = .working [.loop condition body] := by
  simp only [step, hprogress, perform]
  split
  · cases hexec : Effect.exec node m.interpreter with
    | ok tasks i' =>
      simp only [List.append_nil]
      rcases (Effect.leaves_of_exec hexec).sure_or_loop with hsure | ⟨hi, condition, body, rfl⟩
      · exact .inr (.inl hsure)
      · exact .inr (.inr ⟨hi, condition, body, rfl⟩)
    | error e i' =>
      obtain rfl : i' = m.interpreter := Effect.eq_of_exec_eq_error hhead hexec
      exact .inl ⟨e, rfl⟩
  · exact .inr (.inl .nil)

/-- A node that is to be executed first, and that fails before another one is executed. -/
theorem traceless_of_ready {e : RuntimeError} (hhead : Head.ofText? node.text ≠ some .program)
    (hi : i.AgreesUpToControl m.interpreter) (hprogress : m.progress = .working [.exec node])
    (hexec : ∀ other, .exec other ∉ (m.tasks moves).tail)
    (hfailed : (m.play moves).progress = .failed e) : Traceless i m moves := by
  refine traceless_of_first_step hi hprogress nofun nofun hexec hfailed ?_
  intro m moves hi hprogress hexec hfailed
  rcases step_ready hhead hprogress with ⟨e', hstep⟩ | hsure | ⟨hinterpreter, _, _, hloop⟩
  · rw [hstep]
    exact traceless_of_failed (m := ⟨m.interpreter, .failed e'⟩) hi rfl moves
  · exact absurd hfailed (not_failed_of_sure hsure hexec e)
  -- a loop is the one statement that a second step can still make fail
  · exact traceless_of_loop (hinterpreter.symm ▸ hi) hloop hexec hfailed

end Machine

/-! ## Simple statements -/

/-- The tasks are actions and waits. -/
def Plain (tasks : List Task) : Prop := ∀ task ∈ tasks, task = .pace ∨ ∃ action, task = .act action

/-- A simple statement leaves an action and a wait, or nothing. -/
lemma Effect.Leaves.plain {node : Node} {i i' : Interpreter A} {tasks : List Task}
    (h : Leaves node i tasks i') (hsimple : node.text ∈ simpleWords) : Plain tasks := by
  have hword : ∀ word ∈ simpleWords, Head.ofText? word ∉
      [some .program, some .block, some .repetition, some .whileLoop, some .choice, some .call] := by
    decide
  have hhead := hword node.text hsimple
  cases h with
  | action action => simp [Plain, paced]
  | assigned _ _ => simp [Plain]
  | nodes _ hnodes =>
    simp only [List.mem_cons, List.not_mem_nil, or_false] at hnodes
    rcases hnodes with h | h <;> simp [h] at hhead
  | script _ _ h | rounds _ _ h | loop _ _ h | call _ _ _ h => simp [h] at hhead

namespace Machine

variable [Actuator A] {i : Interpreter A} {m : Machine A} {node : Node} {moves : List Move}

lemma Turn.plain {m' : Machine A} (h : Turn m m') (hm : Plain m.progress.pending) :
    Plain m'.progress.pending := by
  cases h with
  | still _ => exact hm
  | ended _ => simp [Plain]
  | unfolded hprogress hunfolds =>
    rw [hprogress] at hm
    obtain ⟨htask, hrest⟩ := List.forall_mem_cons.1 hm
    cases hunfolds with
    | performed action => exact hrest
    | dropped _ _ => exact hrest
    | _ => simp at htask
  | failed _ _ _ _ => simp [Plain, fail]

/-- Where only actions and waits are left, no node is executed. -/
lemma exec_notMem_of_plain (hm : Plain m.progress.pending) (moves : List Move) (node : Node) :
    .exec node ∉ m.tasks moves := by
  induction moves generalizing m with
  | nil => exact List.not_mem_nil
  | cons x moves ih =>
    cases x with
    | step =>
      have hfirst : m.task? ≠ some (.exec node) := fun htask => by
        simpa using hm _ (List.mem_of_mem_head? htask)
      simp [tasks, hfirst, ih (m.turn_step.plain hm)]
    | control action => exact ih (m := m.control action) hm

/-- A simple statement executes no other node. -/
theorem exec_notMem_tail_of_simple (hsimple : node.text ∈ simpleWords)
    (hprogress : m.progress = .working [.exec node]) (moves : List Move) (other : Node) :
    .exec other ∉ (m.tasks moves).tail := by
  induction moves generalizing m with
  | nil => exact List.not_mem_nil
  | cons x moves ih =>
    cases x with
    | step =>
      have htask : m.task? = some (.exec node) := by rw [task?, hprogress]; rfl
      have hplain : Plain m.step.progress.pending := by
        simp only [step, hprogress, perform]
        split
        · cases hexec : Effect.exec node m.interpreter with
          | ok tasks i' => simpa using (Effect.leaves_of_exec hexec).plain hsimple
          | error e i' => simp [Plain, fail]
        · simp [Plain, withTasks]
      rw [tasks, htask]
      exact exec_notMem_of_plain hplain moves other
    | control action => exact ih (m := m.control action) hprogress

end Machine

/-- The component of a color that an expression stands for. -/
def Surroundings.component (s : Surroundings) (node : Node) : Fallible UInt8 :=
  s.expression node >>= colorComponent

/-- A color of which only the last component is bad. -/
lemma Effect.color_of_last [Actuator A] {i : Interpreter A} {red green blue : Node} {r g : UInt8}
    {e : RuntimeError} (t : Token) (hred : i.surroundings.component red = .ok r)
    (hgreen : i.surroundings.component green = .ok g)
    (hblue : i.surroundings.component blue = .error e) :
    color (.node t [red, green, blue]) i = .error e i := by
  obtain ⟨redValue, hred, hr⟩ := Fallible.exists_of_bind_eq_ok hred
  obtain ⟨greenValue, hgreen, hg⟩ := Fallible.exists_of_bind_eq_ok hgreen
  change (expression red >>= fun _ => _) i = _
  rw [bind_apply, expression_apply, hred]
  dsimp only
  rw [bind_apply, expression_apply, hgreen]
  dsimp only
  rw [bind_apply, expression_apply]
  unfold Surroundings.component at hblue
  cases hvalue : i.surroundings.expression blue with
  | error e' =>
    rw [hvalue] at hblue
    cases hblue
    rfl
  | ok blueValue =>
    rw [hvalue] at hblue
    change colorComponent blueValue = .error e at hblue
    simp only [hr, hg, hblue]
    rfl

namespace Machine

variable [Actuator A]

/-- A statement that fails has no effect.  Whatever a simple statement fails for, and whatever a statement
with a body fails for before a body is entered, no variable, no procedure and no actuator has changed, no
action was carried out and there was no wait, whatever the controller did meanwhile.

In particular, a color of which only the last component is bad fails at once and leaves everything as it
was. -/
theorem traceless_of_statement (i : Interpreter A) :
    (∀ node moves e,
      (node.text ∈ simpleWords ∨
        node.text ∈ compoundWords ∧ ∀ body, .exec body ∉ ((ofNode i node).tasks moves).tail) →
      ((ofNode i node).play moves).progress = .failed e → Traceless i (ofNode i node) moves) ∧
    ∀ (t : Token) red green blue r g e, i.control.running = true → t.text = "color" →
      i.surroundings.component red = .ok r → i.surroundings.component green = .ok g →
      i.surroundings.component blue = .error e →
      (ofNode i (.node t [red, green, blue])).step = ⟨i, .failed e⟩ := by
  constructor
  · intro node moves e hstatement hfailed
    have hword : ∀ word ∈ simpleWords ++ compoundWords, Head.ofText? word ≠ some .program := by decide
    have hexec (other : Node) : .exec other ∉ ((ofNode i node).tasks moves).tail := by
      rcases hstatement with hsimple | ⟨-, hexec⟩
      · exact exec_notMem_tail_of_simple hsimple rfl moves other
      · exact hexec other
    have hhead : Head.ofText? node.text ≠ some .program :=
      hword _ (List.mem_append.2 (hstatement.imp_right And.left))
    exact traceless_of_ready hhead ⟨i.control, rfl⟩ rfl hexec hfailed
  · intro t red green blue r g e hrunning hcolor hred hgreen hblue
    have hexec : Effect.exec (.node t [red, green, blue]) i =
        Effect.color (.node t [red, green, blue]) i := by
      have htext : Node.text (.node t [red, green, blue]) = "color" := hcolor
      rw [Effect.exec, htext]
      rfl
    rw [step_ofNode hrunning, hexec, Effect.color_of_last t hred hgreen hblue]
    rfl

/-- Within a call, a color whose last component is too large, and a loop whose condition reads a variable
that is not defined. -/
theorem traceless_of_statement_color :
    let name (text : String) : Node := .leaf ⟨.name, text⟩
    let color : Node := .node (.keyword "color") [name "r", name "g", name "b"]
    let loop : Node := .node (.keyword "while")
      [.node ⟨.symbol, "<"⟩ [name "r", name "x"], .leaf (.keyword "block")]
    let i : Interpreter Walker :=
      ⟨.centered, .ofSettings {}, ⟨⟨[("r", 1), ("g", 2)]⟩, [⟨[("b", 300)]⟩]⟩, .empty⟩
    let moves : List Move := [.step, .control .pause, .step]
    color.text ∈ simpleWords ∧ ((ofNode i color).play moves).progress = .failed (.colorRange 300) ∧
      Traceless i (ofNode i color) moves ∧
      loop.text ∈ compoundWords ∧ (∀ body, .exec body ∉ ((ofNode i loop).tasks moves).tail) ∧
      ((ofNode i loop).play moves).progress = .failed (.undefinedVariable "x") ∧
      Traceless i (ofNode i loop) moves := by
  intro name color loop i moves
  have hsimple : color.text ∈ simpleWords := by decide
  have hcompound : loop.text ∈ compoundWords := by decide
  obtain ⟨hall, hlast⟩ := traceless_of_statement i
  have hred : i.surroundings.component (name "r") = .ok 1 := by
    rw [Surroundings.component, show i.surroundings.expression (name "r") = .ok 1 by cbv]
    rfl
  have hgreen : i.surroundings.component (name "g") = .ok 2 := by
    rw [Surroundings.component, show i.surroundings.expression (name "g") = .ok 2 by cbv]
    rfl
  have hblue : i.surroundings.component (name "b") = .error (.colorRange 300) := by
    rw [Surroundings.component, show i.surroundings.expression (name "b") = .ok 300 by cbv]
    rfl
  have hcolor : ((ofNode i color).play moves).progress = .failed (.colorRange 300) := by
    rw [play_cons, move, hlast (.keyword "color") _ _ _ 1 2 _ rfl rfl hred hgreen hblue]
    rfl
  have htasks : ∃ condition body, ((ofNode i loop).tasks moves).tail = [.loop condition body] :=
    ⟨_, _, rfl⟩
  have hexec (body : Node) : .exec body ∉ ((ofNode i loop).tasks moves).tail := by
    obtain ⟨_, _, htail⟩ := htasks
    simp [htail]
  have hloop : ((ofNode i loop).play moves).progress = .failed (.undefinedVariable "x") := by cbv
  exact ⟨hsimple, hcolor, hall _ _ _ (.inl hsimple) hcolor, hcompound, hexec, hloop,
    hall _ _ _ (.inr ⟨hcompound, hexec⟩) hloop⟩

end Machine

end Logo
