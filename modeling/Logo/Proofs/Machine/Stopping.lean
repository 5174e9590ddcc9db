import Logo.Proofs.Machine.Undisturbed
import Mathlib

/-!
# A stop cuts a run short

Once a run reads that it was stopped, and as long as nothing starts it again, it only drops the tasks
that are left.  `Machine.skip` is a step of that sort; it has no use for an actuator.

* `Machine.play_eq_skip`: a machine that only reads that it was stopped skips.
* `Machine.cutShort_of_stop`: so a run that is stopped makes the first actions of the undisturbed run
  and no others, changes no variable and no procedure any more, leaves all its calls, and ends as
  stopped, not with an error.
-/

namespace Logo

variable {A : Type}

lemma Interpreter.unwind_append (i : Interpreter A) (tasks tasks' : List Task) :
    (i.unwind tasks).unwind tasks' = i.unwind (tasks ++ tasks') := by
  simp [unwind, Scope.pop, List.drop_drop]

namespace Machine

/-! ## Skipping -/

/-- The machine without its next task, of which nothing is done but that a call is left.  When there
is no task left the run ends as stopped. -/
def skip (m : Machine A) : Machine A :=
  match m.progress with
  | .working [] => { m with progress := .finished .stopped }
  | .working (task :: rest) => ⟨m.interpreter.unwind [task], .working rest⟩
  | .finished _ => m
  | .failed _ => m

lemma freed_skip (m : Machine A) : m.skip.freed = m.freed.skip := by
  obtain ⟨i, progress⟩ := m
  match progress with
  | .working [] => rfl
  | .working (task :: rest) => rfl
  | .finished _ => rfl
  | .failed _ => rfl

lemma pending_skip (m : Machine A) : m.skip.progress.pending = m.progress.pending.tail := by
  obtain ⟨i, progress⟩ := m
  match progress with
  | .working [] => rfl
  | .working (task :: rest) => rfl
  | .finished _ => rfl
  | .failed _ => rfl

/-- What is left when a number of tasks has been skipped. -/
lemma iterate_skip (count : Nat) (i : Interpreter A) (tasks : List Task) :
    skip^[count] ⟨i, .working tasks⟩ =
      ⟨i.unwind (tasks.take count),
        if count ≤ tasks.length then .working (tasks.drop count) else .finished .stopped⟩ := by
  induction count generalizing i tasks with
  | zero => rfl
  | succ count ih =>
    rw [Function.iterate_succ_apply]
    cases tasks with
    | nil => exact Function.iterate_fixed rfl count
    | cons task rest =>
      change skip^[count] ⟨i.unwind [task], .working rest⟩ = _
      rw [ih, Interpreter.unwind_append]
      simp

/-! ## What a stop leaves alone -/

/-- How a machine stands after a stop, seen from the moment `cut` at which it first read of it. -/
structure CutShort (cut m : Machine A) : Prop where
  /-- No action was carried out. -/
  actuator : m.interpreter.actuator = cut.interpreter.actuator
  /-- No procedure was changed. -/
  procedures : m.interpreter.procedures = cut.interpreter.procedures
  /-- No global variable was changed. -/
  globals : m.interpreter.scope.globals = cut.interpreter.scope.globals
  /-- Calls were left, and no variable was changed in those that were not. -/
  locals : m.interpreter.scope.locals <:+ cut.interpreter.scope.locals
  /-- There was no error. -/
  unfailed (e : RuntimeError) : m.progress ≠ .failed e

section Skipped

variable {cut m : Machine A} {tasks : List Task} {count : Nat}
variable (hcut : cut.progress = .working tasks) (h : m.freed = skip^[count] cut.freed)
include hcut h

/-- What is left of a machine that has skipped a number of tasks. -/
lemma skipped :
    m.interpreter = { cut.interpreter.unwind (tasks.take count) with
      control := m.interpreter.control } ∧
    m.progress =
      if count ≤ tasks.length then .working (tasks.drop count) else .finished .stopped := by
  obtain ⟨i, _⟩ := cut
  obtain ⟨j, progress⟩ := m
  subst hcut
  have heq : freed ⟨j, progress⟩ = _ := h.trans (iterate_skip count i.freed tasks)
  refine ⟨?_, congrArg Machine.progress heq⟩
  have hj : j.freed = i.freed.unwind (tasks.take count) := congrArg interpreter heq
  change { j.freed with control := j.control } = _
  rw [hj]
  rfl

lemma cutShort_of_skip : CutShort cut m := by
  obtain ⟨hinterpreter, hprogress⟩ := skipped hcut h
  constructor
  · rw [hinterpreter]
    rfl
  · rw [hinterpreter]
    rfl
  · rw [hinterpreter]
    rfl
  · rw [hinterpreter]
    exact List.drop_suffix _ _
  · intro e he
    rw [hprogress] at he
    split at he <;> cases he

/-- When all tasks were skipped the run has ended, and all calls were left. -/
lemma stopped_of_skip (hnested : cut.Nested 0) (hcount : tasks.length < count) :
    m.progress = .finished .stopped ∧ m.interpreter.scope.depth = 1 := by
  obtain ⟨hinterpreter, hprogress⟩ := skipped hcut h
  refine ⟨by rw [hprogress, if_neg (Nat.not_le_of_lt hcount)], ?_⟩
  have hlength : cut.interpreter.scope.locals.length = 0 + tasks.countP Task.isLeave := by
    simpa [Nested, hcut] using hnested
  rw [hinterpreter, List.take_of_length_le (Nat.le_of_lt hcount)]
  simp [Interpreter.unwind, Scope.depth, Scope.pop, hlength]

end Skipped

lemma calls_eq_of_cutShort {cut m : Machine (Recorder A)} (h : CutShort cut m) :
    m.calls = cut.calls := by
  rw [calls, h.actuator]
  rfl

/-- Where the next step reads the running flag, there is no action to be carried out. -/
lemma exists_tasks_of_reading {m : Machine A} {running : Bool} (hprompt : m.Prompt)
    (h : m.reading? = some running) :
    ∃ tasks, m.progress = .working tasks ∧ ∀ action, .act action ∉ tasks := by
  obtain ⟨i, progress⟩ := m
  have hreads : progress.reads := by
    unfold reading? at h
    split at h
    · assumption
    · cases h
  match progress with
  | .working [] => exact ⟨[], rfl, fun _ => List.not_mem_nil⟩
  | .working (task :: rest) =>
    refine ⟨task :: rest, rfl, fun action hmem => ?_⟩
    rcases List.mem_cons.1 hmem with rfl | hmem
    · exact Bool.false_ne_true hreads
    · exact hprompt action hmem

/-! ## Stopped machines skip -/

variable [Actuator A]

/-- Where there is no action to be carried out, and nothing reads that the run is going on, a step
skips a task. -/
lemma step_eq_skip {m : Machine A} (hact : ∀ action, .act action ∉ m.progress.pending)
    (h : m.reading? ≠ some true) : m.step = m.skip := by
  obtain ⟨i, progress⟩ := m
  have hrunning (hreads : progress.reads) : i.control.running = false := by
    simpa [reading?, hreads] using h
  cases progress with
  | finished outcome => rfl
  | failed e => rfl
  | working tasks =>
    cases tasks with
    | nil => simp [step, skip, hrunning rfl]
    | cons task rest =>
      change (⟨i, .working (task :: rest)⟩ : Machine A).perform rest task = _
      cases task with
      | exec node =>
        rw [perform, if_neg (by simp [hrunning rfl])]
        rfl
      | act action => exact absurd List.mem_cons_self (hact action)
      | pace =>
        rw [perform, if_neg (by simp [RunControl.holds, hrunning rfl])]
        rfl
      | rounds count body =>
        cases count with
        | zero => rfl
        | succ count =>
          rw [perform, if_neg (by simp [hrunning rfl])]
          rfl
      | loop condition body =>
        rw [perform, if_neg (by simp [hrunning rfl])]
        rfl
      | leave => rfl

/-- A machine that has no action to carry out, and only reads that it was stopped, skips. -/
theorem play_eq_skip {m : Machine A} {moves : List Move}
    (hact : ∀ action, .act action ∉ m.progress.pending)
    (h : ∀ running ∈ m.readings moves, running = false) :
    (m.play moves).freed = skip^[moves.count .step] m.freed := by
  induction moves generalizing m with
  | nil => rfl
  | cons x moves ih =>
    cases x with
    | step =>
      obtain ⟨hfirst, hlater⟩ := List.forall_mem_append.1 h
      have hreading : m.reading? ≠ some true := fun htrue =>
        Bool.false_ne_true (hfirst true (by simp [htrue])).symm
      have hstep : m.step = m.skip := step_eq_skip hact hreading
      have hact' (action : Action) : .act action ∉ m.step.progress.pending := by
        rw [hstep, pending_skip]
        exact fun hmem => hact action (List.mem_of_mem_tail hmem)
      rw [play_cons, move, ih hact' hlater, hstep, freed_skip, List.count_cons_self,
        Function.iterate_succ_apply]
    | control action =>
      have hcount : (Move.control action :: moves).count .step = moves.count .step :=
        List.count_cons_of_ne (by simp)
      rw [play_cons, move, ih (m := m.control action) hact h, freed_control, hcount]

/-- What becomes of a machine that reads no more than that it was stopped. -/
lemma cutShort_play {cut : Machine A} {tasks : List Task} (hcut : cut.progress = .working tasks)
    (hact : ∀ action, .act action ∉ tasks) (hnested : cut.Nested 0) {after : List Move}
    (hafter : ∀ running ∈ cut.readings after, running = false) :
    (cut.play after).freed = skip^[after.count .step] cut.freed ∧ CutShort cut (cut.play after) ∧
      (tasks.length < after.count .step →
        (cut.play after).progress = .finished .stopped ∧
          (cut.play after).interpreter.scope.depth = 1) := by
  have hskip := play_eq_skip (by simpa [hcut] using hact) hafter
  exact ⟨hskip, cutShort_of_skip hcut hskip, stopped_of_skip hcut hskip hnested⟩

/-! ## Stopped runs -/

/-- Whether some actions are the first ones of a run: at some moment it has carried out these and no
others. -/
def OpensWith (m : Machine (Recorder A)) (actions : List Action) : Prop :=
  ∃ fuel, (run fuel m).calls = actions ∧ ∀ more, actions <+: (run (fuel + more) m).calls

lemma opensWith_run (m : Machine (Recorder A)) (fuel : Nat) : m.OpensWith (run fuel m).calls :=
  ⟨fuel, rfl, fun more => m.prefix_calls_run (Nat.le_add_right fuel more)⟩

/-- A run that only read that it was going on has made the first actions of the undisturbed run. -/
lemma opensWith_of_readings {m : Machine (Recorder A)} {moves : List Move}
    (h : ∀ running ∈ m.readings moves, running = true) : m.freed.OpensWith (m.play moves).calls := by
  obtain ⟨fuel, hfuel⟩ := exists_run_of_readings h
  have hcalls : (m.play moves).calls = (run fuel m.freed).calls := by rw [← hfuel, calls_freed]
  rw [hcalls]
  exact opensWith_run m.freed fuel

lemma step_of_act {m : Machine A} {action : Action} {rest : List Task}
    (h : m.progress = .working (.act action :: rest)) :
    m.step = ⟨{ m.interpreter with actuator := Actuator.perform action m.interpreter.actuator },
      .working rest⟩ := by
  simp [step, h, perform]

lemma calls_step_of_act {m : Machine (Recorder A)} {action : Action} {rest : List Task}
    (h : m.progress = .working (.act action :: rest)) : m.step.calls = m.calls ++ [action] := by
  rw [step_of_act h]
  simp [calls, Actuator.perform]

/-- A stop cuts a run short and never turns it into an error.  As long as the run reads that it is
going on, it makes the undisturbed run.

When a step then reads that it was stopped, and all later ones do, nothing is done any more but that
tasks are dropped and calls are left; after a number of steps the run has ended as stopped, outside all
calls.  In particular, a stop during an action makes that action the last one, whatever the undisturbed
run would have done after it. -/
theorem cutShort_of_stop {i : Interpreter (Recorder A)} {program : Node} {before : List Move}
    (hbefore : ∀ running ∈ (ofProgram i program).readings before, running = true) :
    let whole := ofProgram i program
    let cut := whole.play before
    (cut.reading? = some false →
      whole.freed.OpensWith cut.calls ∧
      ∃ bound, ∀ after, (∀ running ∈ cut.readings after, running = false) →
        let m := cut.play after
        m.freed = skip^[after.count .step] cut.freed ∧ CutShort cut m ∧ m.calls = cut.calls ∧
          (bound ≤ after.count .step →
            m.progress = .finished .stopped ∧ m.interpreter.scope.depth = 1)) ∧
    ∀ action rest, cut.progress = .working (.act action :: rest) →
      whole.freed.OpensWith (cut.calls ++ [action]) ∧
      ∃ bound, ∀ after, .control .start ∉ after →
        let m := cut.play (.step :: .control .stop :: after)
        m.calls = cut.calls ++ [action] ∧ (∀ e, m.progress ≠ .failed e) ∧
          (bound ≤ after.count .step →
            m.progress = .finished .stopped ∧ m.interpreter.scope.depth = 1) := by
  intro whole cut
  have hprompt : cut.Prompt := prompt_play i program before
  have hnested : cut.Nested 0 := nested_play i program before
  refine ⟨fun hreading => ⟨opensWith_of_readings hbefore, ?_⟩, fun action rest hcut => ⟨?_, ?_⟩⟩
  · obtain ⟨tasks, hcut, hact⟩ : ∃ tasks, cut.progress = .working tasks ∧
        ∀ action, .act action ∉ tasks := exists_tasks_of_reading hprompt hreading
    refine ⟨tasks.length + 1, fun after hafter => ?_⟩
    obtain ⟨hskip, hshort, hend⟩ := cutShort_play hcut hact hnested hafter
    exact ⟨hskip, hshort, calls_eq_of_cutShort hshort, hend⟩
  · -- an action reads nothing, so that it is made as in the undisturbed run
    have hread : cut.readings [.step] = [] := by
      simp [readings, reading?, hcut, Progress.reads, Task.reads]
    have hreadings : ∀ running ∈ whole.readings (before ++ [.step]), running = true := by
      rwa [readings_append, show (whole.play before).readings [.step] = [] from hread,
        List.append_nil]
    have hopens := opensWith_of_readings hreadings
    rw [play_append] at hopens
    rwa [← calls_step_of_act hcut]
  · have hprogress : (cut.step.control .stop).progress = .working rest := by
      rw [step_of_act hcut]
      rfl
    have hact (a : Action) : .act a ∉ rest := by simpa [Prompt, hcut] using hprompt a
    refine ⟨rest.length + 1, fun after hstart => ?_⟩
    obtain ⟨-, hshort, hend⟩ := cutShort_play hprogress hact (cut.turn_step.nested hnested)
      (readings_of_stopped rfl hstart)
    exact ⟨(calls_eq_of_cutShort hshort).trans (calls_step_of_act hcut), hshort.unfailed, hend⟩

/-- A procedure that lifts the pen and calls itself would go on until too many calls are active.  It
is stopped while it lifts the pen for the first time. -/
theorem cutShort_of_stop_recursion :
    let call : Node := .node (.keyword "do") [.leaf ⟨.name, "p"⟩, .leaf (.keyword "list")]
    let definition : Node := .node (.keyword "def")
      [.node (.keyword "header") [.leaf ⟨.name, "p"⟩, .leaf (.keyword "list")],
        .node (.keyword "block") [.leaf (.keyword "penup"), call]]
    let program : Node := .node (.keyword "program")
      [.node (.keyword "block") [call], .node (.keyword "list") [definition]]
    let whole : Machine (Recorder Walker) :=
      .ofProgram (.new (.new .centered) (.ofSettings {})) program
    let before : List Move := .replicate 6 .step
    let before' := before ++ [.step, .control .stop]
    (∀ running ∈ whole.readings before, running = true) ∧
      (∀ running ∈ whole.readings before', running = true) ∧
      (whole.play before').reading? = some false ∧
      whole.freed.OpensWith [.home, .penUp] ∧
      (∃ bound, ∀ after, .control .start ∉ after →
        let m := (whole.play before).play (.step :: .control .stop :: after)
        m.calls = [.home, .penUp] ∧ (bound ≤ after.count .step → m.progress = .finished .stopped)) ∧
      ∃ bound, ∀ after, (∀ running ∈ (whole.play before').readings after, running = false) →
        let m := (whole.play before').play after
        m.calls = [.home, .penUp] ∧
          (bound ≤ after.count .step → m.interpreter.scope.depth = 1) := by
  intro call definition program whole before before'
  have hreadings : whole.readings before = .replicate 5 true := by cbv
  have hreadings' : whole.readings before' = .replicate 5 true := by cbv
  have hbefore : ∀ running ∈ whole.readings before, running = true := by
    rw [hreadings]
    decide
  have hbefore' : ∀ running ∈ whole.readings before', running = true := by
    rw [hreadings']
    decide
  have hreading : (whole.play before').reading? = some false := by cbv
  have hnext : (whole.play before).progress =
      .working [.act .penUp, .pace, .exec call, .leave] := by cbv
  have hcalls : (whole.play before).calls = [.home] := by cbv
  have hcalls' : (whole.play before').calls = [.home, .penUp] := by cbv
  obtain ⟨-, hduring⟩ := cutShort_of_stop hbefore
  obtain ⟨hopens, bound, hbound⟩ := hduring .penUp _ hnext
  obtain ⟨hread, -⟩ := cutShort_of_stop hbefore'
  obtain ⟨-, bound', hbound'⟩ := hread hreading
  refine ⟨hbefore, hbefore', hreading, by rwa [hcalls] at hopens, ⟨bound, fun after hafter => ?_⟩,
    bound', fun after hafter => ?_⟩
  · obtain ⟨hlast, -, hend⟩ := hbound after hafter
    exact ⟨hlast.trans (by rw [hcalls]; rfl), fun hle => (hend hle).1⟩
  · obtain ⟨-, -, hlast, hend⟩ := hbound' after hafter
    exact ⟨hlast.trans hcalls', fun hle => (hend hle).2⟩

end Machine

end Logo
