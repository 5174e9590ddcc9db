import Logo.Proofs.Machine.Calls
import Logo.Proofs.Machine.Operand
import Mathlib

/-!
# Rounds of a loop

A counted loop evaluates its count once and then only counts down, whatever its body does.  As long as
nothing stops the run and the body does not fail, it is therefore that many executions of the body, one
after the other.  The body is executed in front of the rounds that are left, so what has to be shown is
that a run to the end of both has a moment at which the body is done.

* `Machine.reaches_andThen_iff`: tasks in front of others are done first.
* `Machine.reaches_rounds_iff`: the rounds of a loop are executions of its body in a row.
* `Machine.execution_repetition_iff`: as many as the count of the loop says.
* `Machine.exact_operands`: which doubles are counts and components of colors, and that a loop makes as
  many rounds as its count.
-/

namespace Logo

variable {A : Type}

/-- The interpreter after some actions of its controller. -/
def Interpreter.steered (i : Interpreter A) (actions : List ControlAction) : Interpreter A :=
  { i with control := i.control.applyAll actions }

lemma Interpreter.steered_steered (i : Interpreter A) (actions more : List ControlAction) :
    (i.steered actions).steered more = i.steered (actions ++ more) := by
  unfold steered RunControl.applyAll
  rw [List.foldl_append]

namespace Machine

lemma control_andThen (m : Machine A) (action : ControlAction) (behind : List Task) :
    (m.andThen behind).control action = (m.control action).andThen behind := by
  obtain ⟨i, progress⟩ := m
  cases progress <;> rfl

/-- Unless all of its tasks are done, a machine reads the same with further tasks behind them. -/
lemma reading?_andThen {m : Machine A} (h : m.progress ≠ .working []) (behind : List Task) :
    (m.andThen behind).reading? = m.reading? := by
  obtain ⟨i, progress⟩ := m
  match progress, h with
  | .working [], h => exact absurd rfl h
  | .working (task :: own), _ => rfl
  | .finished _, _ => rfl
  | .failed _, _ => rfl

variable [Actuator A]

/-- And it takes the same step. -/
lemma step_andThen {m : Machine A} (h : m.progress ≠ .working []) (behind : List Task) :
    (m.andThen behind).step = m.step.andThen behind := by
  obtain ⟨i, progress⟩ := m
  match progress, h with
  | .working [], h => exact absurd rfl h
  | .working (task :: own), _ => exact perform_andThen i task own behind
  | .finished _, _ => rfl
  | .failed _, _ => rfl

/-! ## Runs that nothing stops -/

/-- A move of a machine that does not read that the run was stopped. -/
inductive Proceeds : Machine A → Machine A → Prop
  /-- The machine takes a step. -/
  | step {m : Machine A} (h : m.reading? ≠ some false) : Proceeds m m.step
  /-- Its controller acts. -/
  | control (m : Machine A) (action : ControlAction) : Proceeds m (m.control action)

/-- Any number of such moves. -/
abbrev Reaches : Machine A → Machine A → Prop := Relation.ReflTransGen Proceeds

/-- The execution of a node to its end, which nothing stops, can take one interpreter to the other. -/
def Execution (node : Node) (i j : Interpreter A) : Prop := Reaches (ofNode i node) ⟨j, .working []⟩

/-- A number of executions in a row can do so; the controller may act behind the last one, too. -/
def Executions (body : Node) : ℕ → Interpreter A → Interpreter A → Prop
  | 0, i, j => ∃ actions, j = i.steered actions
  | count + 1, i, j => ∃ i', Execution body i i' ∧ Executions body count i' j

variable {m m' : Machine A} {i j : Interpreter A} {behind : List Task}

/-- What is reached so is what a play comes to that reads nothing but that the run is going on. -/
lemma reaches_iff :
    Reaches m m' ↔ ∃ moves, (∀ running ∈ m.readings moves, running = true) ∧ m.play moves = m' := by
  constructor
  · intro h
    induction h using Relation.ReflTransGen.head_induction_on with
    | refl => exact ⟨[], nofun, rfl⟩
    | @head m m'' hmove _ ih =>
      obtain ⟨moves, hreadings, hplay⟩ := ih
      cases hmove with
      | step hgoing =>
        refine ⟨.step :: moves, List.forall_mem_append.2 ⟨fun running hmem => ?_, hreadings⟩, hplay⟩
        have hreading : m.reading? = some running := by simpa using hmem
        exact Bool.of_not_eq_false fun hstopped => hgoing (hstopped ▸ hreading)
      | control action => exact ⟨.control action :: moves, hreadings, hplay⟩
  · rintro ⟨moves, hreadings, rfl⟩
    induction moves generalizing m with
    | nil => exact .refl
    | cons x moves ih =>
      cases x with
      | step =>
        obtain ⟨hfirst, hlater⟩ := List.forall_mem_append.1 hreadings
        have hgoing : m.reading? ≠ some false := fun hfalse =>
          absurd (hfirst false (by simp [hfalse])) Bool.false_ne_true
        exact .head (.step hgoing) (ih hlater)
      | control action => exact .head (.control m action) (ih hreadings)

lemma progress_of_proceeds {outcome : Outcome} (h : Proceeds m m')
    (hfinished : m.progress = .finished outcome) : m'.progress = .finished outcome := by
  cases h with
  | step _ => exact progress_move_of_finished hfinished .step
  | control action => exact progress_move_of_finished hfinished (.control action)

/-- The controller may act at any moment. -/
lemma reaches_steered (i : Interpreter A) (progress : Progress) (actions : List ControlAction) :
    Reaches ⟨i, progress⟩ ⟨i.steered actions, progress⟩ := by
  induction actions generalizing i with
  | nil => exact .refl
  | cons action actions ih => exact .head (.control _ action) (ih (i.steered [action]))

/-- Where all tasks are done, only the controller can act. -/
lemma reaches_idle_iff :
    Reaches ⟨i, .working []⟩ ⟨j, .working []⟩ ↔ ∃ actions, j = i.steered actions := by
  constructor
  · suffices hidle : ∀ m, Reaches ⟨i, .working []⟩ m →
        (∀ outcome, m.progress ≠ .finished outcome) → ∃ actions, m = ⟨i.steered actions, .working []⟩ by
      intro h
      obtain ⟨actions, hm⟩ := hidle _ h nofun
      exact ⟨actions, congrArg Machine.interpreter hm⟩
    intro m h
    induction h with
    | refl => exact fun _ => ⟨[], rfl⟩
    | @tail m m' _ hmove ih =>
      intro hm'
      obtain ⟨actions, rfl⟩ := ih fun outcome hm => hm' outcome (progress_of_proceeds hmove hm)
      cases hmove with
      | step _ => exact absurd rfl (hm' _)
      | control action =>
        refine ⟨actions ++ [action], ?_⟩
        rw [← Interpreter.steered_steered]
        rfl
  · rintro ⟨actions, rfl⟩
    exact reaches_steered i _ actions

/-- The next task is begun after some actions of the controller, unless it reads that the run was
stopped. -/
lemma reaches_task_iff {task : Task} {rest : List Task} :
    Reaches ⟨i, .working (task :: rest)⟩ ⟨j, .working []⟩ ↔
      ∃ actions, (task.reads = true → (i.steered actions).control.running = true) ∧
        Reaches (mk (i.steered actions) (.working (task :: rest))).step ⟨j, .working []⟩ := by
  have hreading (i : Interpreter A) : (mk i (.working (task :: rest))).reading? ≠ some false ↔
      (task.reads = true → i.control.running = true) := by
    change (if task.reads then some i.control.running else none) ≠ some false ↔ _
    cases task.reads <;> simp
  constructor
  · intro h
    generalize hm : (⟨i, .working (task :: rest)⟩ : Machine A) = m at h
    induction h using Relation.ReflTransGen.head_induction_on generalizing i with
    | refl => exact nomatch congrArg Machine.progress hm
    | head hmove hrest ih =>
      subst hm
      cases hmove with
      | step hgoing => exact ⟨[], (hreading i).mp hgoing, hrest⟩
      | control action =>
        obtain ⟨actions, hactions⟩ := ih (i := i.steered [action]) rfl
        exact ⟨action :: actions, hactions⟩
  · rintro ⟨actions, hgoing, hrest⟩
    exact (reaches_steered i _ actions).trans (.head (.step ((hreading _).mpr hgoing)) hrest)

/-! ## Tasks in front of others -/

/-- As long as there are tasks in front, nothing is read from those behind. -/
lemma Proceeds.andThen (h : Proceeds m m') (hm' : ∀ outcome, m'.progress ≠ .finished outcome)
    (behind : List Task) : Proceeds (m.andThen behind) (m'.andThen behind) := by
  cases h with
  | step hreading =>
    have hne : m.progress ≠ .working [] := by
      intro hnil
      unfold Machine.step at hm'
      rw [hnil] at hm'
      exact hm' _ rfl
    rw [← step_andThen hne]
    exact .step (by rwa [reading?_andThen hne])
  | control action =>
    rw [← control_andThen]
    exact .control _ action

lemma Reaches.andThen (h : Reaches m m') (hm' : ∀ outcome, m'.progress ≠ .finished outcome)
    (behind : List Task) : Reaches (m.andThen behind) (m'.andThen behind) := by
  induction h with
  | refl => exact .refl
  | tail _ hmove ih =>
    have hbefore := ih fun outcome hm => hm' outcome (progress_of_proceeds hmove hm)
    exact hbefore.tail (hmove.andThen hm' behind)

/-- Tasks in front of others are done first. -/
theorem reaches_andThen_iff :
    Reaches (m.andThen behind) ⟨j, .working []⟩ ↔
      ∃ i', Reaches m ⟨i', .working []⟩ ∧ Reaches ⟨i', .working behind⟩ ⟨j, .working []⟩ := by
  constructor
  · intro h
    generalize hstart : m.andThen behind = start at h
    induction h using Relation.ReflTransGen.head_induction_on generalizing m with
    | refl =>
      obtain ⟨i, progress⟩ := m
      cases progress with
      | working own =>
        obtain ⟨rfl, hprogress⟩ := Machine.mk.inj hstart
        obtain ⟨rfl, rfl⟩ := List.append_eq_nil_iff.mp (Progress.working.inj hprogress)
        exact ⟨i, .refl, .refl⟩
      | finished outcome => exact nomatch congrArg Machine.progress hstart
      | failed error => exact nomatch congrArg Machine.progress hstart
    | head hmove hrest ih =>
      subst hstart
      by_cases hnil : m.progress = .working []
      · obtain ⟨i, _⟩ := m
        subst hnil
        exact ⟨i, .refl, .head hmove hrest⟩
      · cases hmove with
        | step hreading =>
          obtain ⟨i', hfront, hbehind⟩ := ih (step_andThen hnil behind).symm
          rw [reading?_andThen hnil] at hreading
          exact ⟨i', .head (.step hreading) hfront, hbehind⟩
        | control action =>
          obtain ⟨i', hfront, hbehind⟩ := ih (control_andThen m action behind).symm
          exact ⟨i', .head (.control m action) hfront, hbehind⟩
  · rintro ⟨i', hfront, hbehind⟩
    exact (hfront.andThen nofun behind).trans hbehind

/-! ## Rounds -/

variable {body : Node}

/-- An execution begins when the node reads that the run is going on. -/
lemma execution_iff :
    Execution body i j ↔
      ∃ actions, (i.steered actions).control.running = true ∧ Execution body (i.steered actions) j := by
  constructor
  · intro h
    obtain ⟨actions, hgoing, hrest⟩ := reaches_task_iff.mp h
    exact ⟨actions, hgoing rfl, reaches_task_iff.mpr ⟨[], hgoing, hrest⟩⟩
  · rintro ⟨actions, -, hrest⟩
    exact (reaches_steered i _ actions).trans hrest

/-- What the controller does before does not count as a round. -/
lemma executions_of_steered {count : ℕ} {actions : List ControlAction}
    (h : Executions body count (i.steered actions) j) : Executions body count i j := by
  cases count with
  | zero =>
    obtain ⟨more, rfl⟩ := h
    exact ⟨actions ++ more, i.steered_steered actions more⟩
  | succ count =>
    obtain ⟨i', hfirst, hrest⟩ := h
    exact ⟨i', (reaches_steered i _ actions).trans hfirst, hrest⟩

/-- The rounds of a loop are executions of its body in a row. -/
theorem reaches_rounds_iff (count : ℕ) :
    Reaches ⟨i, .working [.rounds count body]⟩ ⟨j, .working []⟩ ↔ Executions body count i j := by
  induction count generalizing i with
  | zero =>
    rw [reaches_task_iff]
    constructor
    · rintro ⟨actions, -, hrest⟩
      exact executions_of_steered (reaches_idle_iff.mp hrest)
    · exact fun h => ⟨[], nofun, reaches_idle_iff.mpr h⟩
  | succ count ih =>
    have hstep (actions : List ControlAction) (hrunning : (i.steered actions).control.running = true) :
        (mk (i.steered actions) (.working [.rounds (count + 1) body])).step =
          (ofNode (i.steered actions) body).andThen [.rounds count body] := by
      change withTasks _ (if (i.steered actions).control.running then _ else _) = _
      rw [if_pos hrunning]
      rfl
    rw [reaches_task_iff]
    constructor
    · rintro ⟨actions, hgoing, hrest⟩
      rw [hstep actions (hgoing rfl), reaches_andThen_iff] at hrest
      obtain ⟨i', hfirst, hrest⟩ := hrest
      exact executions_of_steered ⟨i', hfirst, ih.mp hrest⟩
    · rintro ⟨i', hfirst, hrest⟩
      obtain ⟨actions, hrunning, hfirst⟩ := execution_iff.mp hfirst
      refine ⟨actions, fun _ => hrunning, ?_⟩
      rw [hstep actions hrunning, reaches_andThen_iff]
      exact ⟨i', hfirst, ih.mpr hrest⟩

/-- A loop evaluates its count at once. -/
lemma exec_repetition {t : Token} {count : Node} {v : Float} {n : ℤ} (ht : t.text = "repeat")
    (hvalue : i.surroundings.expression count = .ok v) (hcount : loopCount v = .ok n) :
    Effect.exec (.node t [count, body]) i = .ok [.rounds n.toNat body] i := by
  have htext : Node.text (.node t [count, body]) = "repeat" := ht
  rw [Effect.exec, htext]
  change (Effect.expression count >>= fun _ => _) i = _
  rw [bind_apply, Effect.expression_apply, hvalue]
  dsimp only
  rw [hcount]
  rfl

/-- A loop makes as many rounds as its count says, and none if that is negative. -/
theorem execution_repetition_iff {t : Token} {count : Node} {v : Float} {n : ℤ}
    (hrunning : i.control.running = true) (ht : t.text = "repeat")
    (hvalue : i.surroundings.expression count = .ok v) (hcount : loopCount v = .ok n) :
    Execution (.node t [count, body]) i j ↔ Executions body n.toNat i j := by
  have hstep (actions : List ControlAction) (hrunning : (i.steered actions).control.running = true) :
      (mk (i.steered actions) (.working [.exec (.node t [count, body])])).step =
        ⟨i.steered actions, .working [.rounds n.toNat body]⟩ := by
    refine (step_ofNode hrunning (.node t [count, body])).trans ?_
    rw [exec_repetition (i := i.steered actions) ht hvalue hcount]
    rfl
  rw [Execution, ofNode, reaches_task_iff]
  constructor
  · rintro ⟨actions, hgoing, hrest⟩
    rw [hstep actions (hgoing rfl), reaches_rounds_iff] at hrest
    exact executions_of_steered hrest
  · intro h
    refine ⟨[], fun _ => hrunning, ?_⟩
    rw [hstep [] hrunning, reaches_rounds_iff]
    exact h

/-- The numbers that a loop and a color take are exact.  A double is a count if its value is a whole
number of 64 bits, and a component of a color if its value lies between 0 and 255; nothing else is, and
the error says so.  The count is that number and the component its whole part.

A loop that nothing stops and none of whose rounds fails executes its body as often as its count says,
and not at all if that is negative. -/
theorem exact_operands :
    (∀ v n, loopCount v = .ok n ↔
      v.isFinite = true ∧ (Binary64.ofFloat v).toRat = n ∧ -2 ^ 63 ≤ n ∧ n < 2 ^ 63) ∧
    (∀ v e, loopCount v = .error e →
      e = .countNotFinite v ∨ e = .countOutOfRange v ∨ e = .countNotWhole v) ∧
    (∀ v c, colorComponent v = .ok c ↔
      v.isFinite = true ∧ 0 ≤ (Binary64.ofFloat v).toRat ∧ (Binary64.ofFloat v).toRat ≤ 255 ∧
        (c.toNat : ℤ) = ⌊(Binary64.ofFloat v).toRat⌋) ∧
    (∀ v, colorComponent v = .error (.colorRange v) ↔
      ¬ (v.isFinite = true ∧
        0 ≤ (Binary64.ofFloat v).toRat ∧ (Binary64.ofFloat v).toRat ≤ 255)) ∧
    ∀ (i j : Interpreter A) (t : Token) (count body : Node) (v : Float) (n : ℤ),
      i.control.running = true → t.text = "repeat" → i.surroundings.expression count = .ok v →
      loopCount v = .ok n →
      (Execution (.node t [count, body]) i j ↔ Executions body (max n 0).toNat i j) := by
  refine ⟨fun v => loopCount_eq_ok_iff, fun v e herror => ?_, fun v => colorComponent_eq_ok_iff,
    fun v => colorComponent_eq_error_iff, ?_⟩
  · rcases loopCount_cases v with ⟨-, h⟩ | ⟨-, -, h⟩ | ⟨-, -, h⟩ | ⟨n, -, -, -, -, h⟩
    · exact .inl (Except.error.inj (herror.symm.trans h))
    · exact .inr (.inl (Except.error.inj (herror.symm.trans h)))
    · exact .inr (.inr (Except.error.inj (herror.symm.trans h)))
    · exact nomatch herror.symm.trans h
  · intro i j t count body v n hrunning ht hvalue hcount
    have htoNat : (max n 0).toNat = n.toNat := by omega
    rw [htoNat]
    exact execution_repetition_iff hrunning ht hvalue hcount

/-- A loop of two rounds, each of which assigns a variable. -/
theorem exact_operands_of_two_rounds :
    let name (text : String) : Node := .leaf ⟨.name, text⟩
    let body : Node := .node (.keyword "block") [.node (.keyword "set") [name "y", name "x"]]
    let i : Interpreter Walker :=
      ⟨.centered, .ofSettings {}, ⟨⟨[("n", 2), ("x", 7)]⟩, []⟩, .empty⟩
    let j : Interpreter Walker := { i with scope := i.scope.store "y" 7 }
    i.control.running = true ∧ i.surroundings.expression (name "n") = .ok 2 ∧ loopCount 2 = .ok 2 ∧
      Execution (.node (.keyword "repeat") [name "n", body]) i j := by
  intro name body i j
  have hvalue : i.surroundings.expression (name "n") = .ok 2 := by cbv
  have hcount : loopCount 2 = .ok 2 := by
    have hfloat : Binary64.ofFloat 2 = .finite false (2 ^ 52) (-51) := rfl
    rw [loopCount_eq_ok_iff, hfloat, Binary64.toRat]
    exact ⟨rfl, by norm_num, by decide, by decide⟩
  have hround : Execution body i j := reaches_iff.mpr ⟨[.step, .step], by decide, by cbv⟩
  have hround' : Execution body j j := reaches_iff.mpr ⟨[.step, .step], by decide, by cbv⟩
  obtain ⟨-, -, -, -, hloop⟩ := @exact_operands Walker _
  refine ⟨rfl, hvalue, hcount, ?_⟩
  rw [hloop i j (.keyword "repeat") (name "n") body 2 2 rfl rfl hvalue hcount]
  exact ⟨j, hround, j, hround', [], rfl⟩

end Machine

end Logo
