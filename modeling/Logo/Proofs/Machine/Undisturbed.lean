import Logo.Proofs.Machine.Play
import Logo.Proofs.Machine.Step

/-!
# Undisturbed runs

A controller can hold a run up, and it can stop it.  Under another control a machine takes the same
step, if it reads the same in the running flag and waits alike (`Machine.step_under`).

As long as no step reads that the run was stopped, the machine therefore does what it would have done
without a controller: that is `Machine.exists_run_of_readings`.  What it would have done is the run of
`Machine.freed`, the same machine under a control that is running and never waits.
-/

namespace Logo

variable {A : Type}

/-! ## Under another control -/

/-- The two interpreters differ at most in their control. -/
def Interpreter.AgreesUpToControl (i j : Interpreter A) : Prop := ∃ c, j = { i with control := c }

/-- No script can tell under which control it runs. -/
lemma Interpreter.twins_agreesUpToControl [Actuator A] :
    Twins (AgreesUpToControl : Interpreter A → Interpreter A → Prop) where
  surroundings := by rintro i _ ⟨c, rfl⟩; rfl
  find? := by rintro i _ ⟨c, rfl⟩ name; rfl
  depth := by rintro i _ ⟨c, rfl⟩; rfl
  register := by rintro i _ ⟨c, rfl⟩ name procedure; exact ⟨c, rfl⟩
  store := by rintro i _ ⟨c, rfl⟩ name value; exact ⟨c, rfl⟩
  push := by rintro i _ ⟨c, rfl⟩ frame; exact ⟨c, rfl⟩
  pop := by rintro i _ ⟨c, rfl⟩ calls; exact ⟨c, rfl⟩
  perform := by rintro i _ ⟨c, rfl⟩ action; exact ⟨c, rfl⟩

namespace Machine

/-- The machine under another control. -/
def under (m : Machine A) (c : RunControl) : Machine A :=
  { m with interpreter := { m.interpreter with control := c } }

/-- All that a step reads of the control is whether the run goes on, and whether to wait. -/
lemma step_under [Actuator A] {m : Machine A} {c d : RunControl}
    (hreading : (m.under c).reading? = (m.under d).reading?)
    (hblocked : (m.under c).blocked = (m.under d).blocked) :
    (m.under c).step = (m.under d).step.under c := by
  have habreast : Abreast Interpreter.AgreesUpToControl (m.under d).step (m.under c).step :=
    lockstep Interpreter.twins_agreesUpToControl ⟨⟨c, rfl⟩, rfl⟩ hreading.symm hblocked.symm
  obtain ⟨⟨c', hinterpreter⟩, hprogress⟩ := habreast
  have hcontrol : (m.under c).step.interpreter.control = c := control_step _
  rw [hinterpreter] at hcontrol
  obtain rfl : c' = c := hcontrol
  calc (m.under c').step
      = ⟨(m.under c').step.interpreter, (m.under c').step.progress⟩ := rfl
    _ = (m.under d).step.under c' := by rw [hinterpreter, ← hprogress]; rfl

end Machine

/-! ## Without a controller -/

/-- The control that lets a run go on at the fastest speed. -/
def RunControl.freed (c : RunControl) : RunControl :=
  { c with running := true, paused := false, speed := maxSpeed }

@[simp] lemma RunControl.freed_apply (c : RunControl) (action : ControlAction) :
    (c.apply action).freed = c.freed := by
  cases action <;> rfl

/-- The interpreter under a control that lets it go on. -/
def Interpreter.freed (i : Interpreter A) : Interpreter A := { i with control := i.control.freed }

namespace Machine

/-- The machine under a control that lets it go on. -/
def freed (m : Machine A) : Machine A := { m with interpreter := m.interpreter.freed }

@[simp] lemma freed_control (m : Machine A) (action : ControlAction) :
    (m.control action).freed = m.freed := by
  simp [freed, control, Interpreter.freed]

@[simp] lemma calls_freed (m : Machine (Recorder A)) : m.freed.calls = m.calls := rfl

lemma blocked_freed (m : Machine A) : m.freed.blocked = false := by
  unfold blocked
  split
  · rfl
  · rfl

lemma running_of_reading {m : Machine A} {running : Bool} (h : m.reading? = some running) :
    m.interpreter.control.running = running := by
  unfold reading? at h
  split at h
  · exact Option.some_inj.1 h
  · cases h

lemma reading?_freed {m : Machine A} (h : m.reading? ≠ some false) :
    m.reading? = m.freed.reading? := by
  unfold reading? at h ⊢
  change _ = if m.progress.reads then some true else none
  split
  · rename_i hreads
    rw [if_pos hreads] at h
    rw [Bool.of_not_eq_false fun hfalse => h (congrArg some hfalse)]
  · rfl

variable [Actuator A]

/-- A step that does not read that the run was stopped is a wait, or one of the undisturbed run. -/
lemma step_freed {m : Machine A} (h : m.reading? ≠ some false) :
    m.step = m ∨ m.step.freed = m.freed.step := by
  by_cases hblocked : m.blocked
  · exact .inl (step_of_blocked hblocked)
  · have hstep : m.freed.step = m.step.under m.interpreter.control.freed :=
      step_under (d := m.interpreter.control) (reading?_freed h).symm
        (m.blocked_freed.trans (Bool.eq_false_iff.2 hblocked).symm)
    right
    rw [hstep, ← control_step m]
    rfl

/-! ## What a play reads -/

/-- What the steps of a play read in the running flag, in order. -/
def readings (m : Machine A) : List Move → List Bool
  | [] => []
  | .step :: moves => m.reading?.toList ++ m.step.readings moves
  | .control action :: moves => (m.control action).readings moves

lemma readings_append (m : Machine A) (moves moves' : List Move) :
    m.readings (moves ++ moves') = m.readings moves ++ (m.play moves).readings moves' := by
  induction moves generalizing m with
  | nil => rfl
  | cons x moves ih =>
    cases x with
    | step => simp [readings, move, ih]
    | control action => exact ih _

/-- A machine that was stopped and is not started again reads that it was stopped. -/
lemma readings_of_stopped {m : Machine A} {moves : List Move}
    (hrunning : m.interpreter.control.running = false) (hstart : .control .start ∉ moves) :
    ∀ running ∈ m.readings moves, running = false := by
  induction moves generalizing m with
  | nil => exact nofun
  | cons x moves ih =>
    have hlater : Move.control .start ∉ moves := fun h => hstart (List.mem_cons_of_mem _ h)
    cases x with
    | step =>
      refine List.forall_mem_append.2 ⟨?_, ih (by rw [control_step, hrunning]) hlater⟩
      unfold reading?
      split <;> simp [hrunning]
    | control action =>
      refine ih (m := m.control action) ?_ hlater
      cases action with
      | start => exact absurd List.mem_cons_self hstart
      | stop => rfl
      | pause => exact hrunning
      | resume => exact hrunning
      | setSpeed speed => exact hrunning

/-- As long as every step reads that the run is going on, the machine makes the undisturbed run,
whatever its controller does. -/
theorem exists_run_of_readings {m : Machine A} {moves : List Move}
    (h : ∀ running ∈ m.readings moves, running = true) :
    ∃ fuel, (m.play moves).freed = run fuel m.freed := by
  induction moves generalizing m with
  | nil => exact ⟨0, rfl⟩
  | cons x moves ih =>
    cases x with
    | step =>
      obtain ⟨hfirst, hlater⟩ := List.forall_mem_append.1 h
      obtain ⟨fuel, hfuel⟩ := ih hlater
      have hreading : m.reading? ≠ some false := fun hfalse =>
        absurd (hfirst false (by simp [hfalse])) Bool.false_ne_true
      rcases step_freed hreading with hstill | hstep
      · exact ⟨fuel, by rw [play_cons, move, hfuel, hstill]⟩
      · refine ⟨1 + fuel, ?_⟩
        rw [play_cons, move, hfuel, hstep, run_add, run_eq_iterate 1]
        rfl
    | control action =>
      obtain ⟨fuel, hfuel⟩ := ih h
      exact ⟨fuel, by rw [play_cons, move, hfuel, freed_control]⟩

end Machine

end Logo
