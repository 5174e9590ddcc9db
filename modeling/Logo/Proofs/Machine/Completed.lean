import Logo.Grammar.Program
import Logo.Proofs.Machine.Undisturbed
import Mathlib

/-!
# What a completed run has done

Whether a run ends as completed or as stopped is told by its last step, which reads the running flag
once more.  Nodes are skipped by the steps before that, each of which reads for itself.

* `Machine.completed_skipped_nothing`: a run that ends as completed has made the undisturbed run,
  unless it was started again after a step had read that it was stopped.
* `Machine.completed_after_skipping`: a run that was started again may end as completed though it has
  skipped a command.
-/

namespace Logo

namespace Machine

variable {A : Type}

/-! ## The last reading -/

/-- Once the run was stopped, no later step reads that it is going on. -/
def StaysStopped (readings : List Bool) : Prop :=
  readings.Pairwise fun earlier later => later = true → earlier = true

variable [Actuator A]

lemma readings_of_halted {m : Machine A} (h : m.halted) (moves : List Move) :
    m.readings moves = [] := by
  induction moves generalizing m with
  | nil => rfl
  | cons x moves ih =>
    cases x with
    | step =>
      have hreading : m.reading? = none := by
        unfold halted at h
        split at h
        · cases h
        · simp [reading?, Progress.reads, *]
        · simp [reading?, Progress.reads, *]
      rw [readings, step_of_halted h, hreading, ih h]
      rfl
    | control action => exact ih (m := m.control action) h

/-- A run ends as completed in a step that reads that it is going on. -/
lemma reading?_of_completed {m : Machine A} (hm : m.progress ≠ .finished .completed)
    (h : m.step.progress = .finished .completed) : m.reading? = some true := by
  have hturn := m.turn_step
  generalize m.step = m' at hturn h
  cases hturn with
  | still _ => exact absurd h hm
  | ended hprogress =>
    cases hrunning : m.interpreter.control.running with
    | true => simp [reading?, hprogress, Progress.reads, hrunning]
    | false => simp [hrunning] at h
  | unfolded _ _ => cases h
  | failed _ _ _ _ => cases h

/-- If a run ends as completed, it never read that it was stopped, or it was started again. -/
lemma readings_of_completed {m : Machine A} {moves : List Move}
    (hm : m.progress ≠ .finished .completed) (hstays : StaysStopped (m.readings moves))
    (hend : (m.play moves).progress = .finished .completed) :
    true ∈ m.readings moves ∧ ∀ running ∈ m.readings moves, running = true := by
  induction moves generalizing m with
  | nil => exact absurd hend hm
  | cons x moves ih =>
    cases x with
    | control action => exact ih (m := m.control action) hm hstays hend
    | step =>
      rw [readings] at hstays ⊢
      by_cases hstep : m.step.progress = .finished .completed
      · have hhalted : m.step.halted := by simp [halted, hstep]
        rw [readings_of_halted hhalted, reading?_of_completed hm hstep]
        decide
      · obtain ⟨-, hlater, hfirst⟩ := List.pairwise_append.1 hstays
        obtain ⟨hmem, htrue⟩ := ih hstep hlater hend
        refine ⟨List.mem_append_right _ hmem, List.forall_mem_append.2 ⟨?_, htrue⟩⟩
        exact fun running hrunning => hfirst running hrunning true hmem rfl

/-- Without a start a run stays stopped. -/
lemma staysStopped_readings {m : Machine A} {moves : List Move}
    (hstart : .control .start ∉ moves) : StaysStopped (m.readings moves) := by
  induction moves generalizing m with
  | nil => exact .nil
  | cons x moves ih =>
    have hlater : Move.control .start ∉ moves := fun h => hstart (List.mem_cons_of_mem _ h)
    cases x with
    | control action => exact ih hlater
    | step =>
      refine List.pairwise_append.2 ⟨?_, ih hlater, fun first hfirst later hmem hrunning => ?_⟩
      · cases m.reading? <;> simp
      · cases first with
        | true => rfl
        | false =>
          have hstopped : m.step.interpreter.control.running = false := by
            rw [control_step]
            exact running_of_reading (by simpa using hfirst)
          exact (readings_of_stopped hstopped hlater later hmem).symm.trans hrunning

/-! ## Completed runs -/

/-- If a run ends as completed, and was not started again after it had read that it was stopped, then
it has skipped nothing: it has made the undisturbed run to its end, whatever else its controller
did. -/
theorem completed_skipped_nothing {i : Interpreter (Recorder A)} {program : Node}
    {moves : List Move} (hstays : StaysStopped ((ofProgram i program).readings moves))
    (hend : ((ofProgram i program).play moves).progress = .finished .completed) :
    ∃ fuel,
      let undisturbed := run fuel (ofProgram i program).freed
      undisturbed.progress = .finished .completed ∧
        undisturbed.calls = ((ofProgram i program).play moves).calls ∧
        undisturbed.interpreter.scope = ((ofProgram i program).play moves).interpreter.scope := by
  obtain ⟨-, htrue⟩ := readings_of_completed (by simp [ofProgram]) hstays hend
  obtain ⟨fuel, hfuel⟩ := exists_run_of_readings htrue
  refine ⟨fuel, ?_⟩
  rw [← hfuel]
  exact ⟨hend, rfl, rfl⟩

/-- The pen is lifted, and the run is paused while it waits behind that. -/
theorem completed_skipped_nothing_paused :
    let program : Node := .node (.keyword "program")
      [.node (.keyword "block") [.leaf (.keyword "penup")], .leaf (.keyword "list")]
    let whole : Machine (Recorder Walker) :=
      .ofProgram (.new (.new .centered) (.ofSettings {})) program
    let moves : List Move := .replicate 5 .step ++
      .control .pause :: .step :: .control (.setSpeed 7) :: .control .resume :: .replicate 2 .step
    StaysStopped (whole.readings moves) ∧
      (whole.play moves).progress = .finished .completed ∧
      ∃ fuel, (run fuel whole.freed).progress = .finished .completed ∧
        (run fuel whole.freed).calls = [.home, .penUp] := by
  intro program whole moves
  have hstays : StaysStopped (whole.readings moves) := staysStopped_readings (by decide)
  have hend : (whole.play moves).progress = .finished .completed := by cbv
  have hcalls : (whole.play moves).calls = [.home, .penUp] := by cbv
  obtain ⟨fuel, hprogress, hsame, -⟩ := completed_skipped_nothing hstays hend
  exact ⟨hstays, hend, fuel, hprogress, hsame.trans hcalls⟩

/-- The command that lifts the pen is skipped, since the run was stopped when it was reached, and
started again before the next one.  The run still ends as completed. -/
theorem completed_after_skipping :
    let program : Node := .node (.keyword "program")
      [.node (.keyword "block") [.leaf (.keyword "penup"), .leaf (.keyword "pendown")],
        .leaf (.keyword "list")]
    let whole : Machine (Recorder Walker) :=
      .ofProgram (.new (.new .centered) (.ofSettings {})) program
    let moves : List Move := .replicate 3 .step ++
      .control .stop :: .step :: .control .start :: .replicate 4 .step
    parse "penup\npendown\n" = .ok program ∧
      (whole.play moves).progress = .finished .completed ∧
      (whole.play moves).calls = [.home, .penDown] ∧
      (run 10 whole.freed).progress = .finished .completed ∧
      (run 10 whole.freed).calls = [.home, .penUp, .penDown] := by
  intro program whole moves
  have hparse : parse "penup\npendown\n" = .ok program := by decide +kernel
  exact ⟨hparse, by cbv, by cbv, by cbv, by cbv⟩

end Machine

end Logo
