import Logo.Proofs.Machine.Stopping
import Logo.Proofs.Machine.Termination

/-!
# Pauses and changes of speed are transparent

A pause or a change of speed can hold a run up, but it cannot make it do anything else.  As long as a
controller neither starts nor stops a run, every step is a wait or the next step of the run that
nobody disturbs (`Machine.play_unheld`), so nothing is lost or repeated wherever the run is held up.

A run is held up soon, because a wait stands behind every action.

* `Machine.gated_play`: once the actuator was sent home, the next task is no action, or a wait comes
  right behind it.
* `Machine.calls_of_held`: where a paused run waits, no further action is carried out.
* `Machine.transparent_of_steered`: what a controller that only pauses, resumes and changes the speed
  can do to a run.
-/

namespace Logo

variable {A : Type}

namespace Effect.Leaves

/-- If a node leaves an action, it leaves a wait behind it and nothing else. -/
lemma eq_pace {node : Node} {i i' : Interpreter A} {action : Action} {tasks : List Task}
    (h : Leaves node i (.act action :: tasks) i') : tasks = [.pace] := by
  generalize hall : Task.act action :: tasks = all at h
  cases h with
  | action other =>
    cases hall
    rfl
  | @nodes nodes _ =>
    cases nodes <;> cases hall
  | _ => cases hall

end Effect.Leaves

namespace Machine

/-! ## The run that nobody disturbs -/

/-- The same machine where nothing waits.  Whether it is running is left as it is. -/
def unheld (m : Machine A) : Machine A :=
  m.under (m.interpreter.control.unheld m.interpreter.control.running)

@[simp] lemma calls_unheld (m : Machine (Recorder A)) : m.unheld.calls = m.calls := rfl

lemma blocked_unheld (m : Machine A) : m.unheld.blocked = false :=
  blocked_under (RunControl.holds_unheld _ _) m

/-- What is skipped is not carried out. -/
lemma calls_skip (m : Machine (Recorder A)) : m.skip.calls = m.calls := by
  unfold skip
  split <;> rfl

/-- Pauses and changes of speed make no difference where nothing waits. -/
lemma unheld_control (m : Machine A) {action : ControlAction} (hstart : action ≠ .start)
    (hstop : action ≠ .stop) : (m.control action).unheld = m.unheld := by
  cases action with
  | start => exact absurd rfl hstart
  | stop => exact absurd rfl hstop
  | pause => rfl
  | resume => rfl
  | setSpeed speed => rfl

variable [Actuator A]

/-- A step that is no wait is one of the undisturbed run. -/
lemma step_unheld {m : Machine A} (h : m.blocked = false) : m.step.unheld = m.unheld.step := by
  have hstep : m.unheld.step =
      m.step.under (m.interpreter.control.unheld m.interpreter.control.running) :=
    step_under (d := m.interpreter.control) rfl (m.blocked_unheld.trans h.symm)
  rw [hstep, unheld, control_step]

/-- Unless it is started or stopped, a machine makes the undisturbed run, as far as its steps are no
waits. -/
theorem play_unheld {m : Machine A} {moves : List Move} (hstart : .control .start ∉ moves)
    (hstop : .control .stop ∉ moves) : (m.play moves).unheld = run (m.turns moves) m.unheld := by
  induction moves generalizing m with
  | nil => rfl
  | cons x moves ih =>
    simp only [List.mem_cons, not_or] at hstart hstop
    have hmoves (m : Machine A) : (m.play moves).unheld = run (m.turns moves) m.unheld :=
      ih hstart.2 hstop.2
    cases x with
    | step =>
      rw [play_cons, move, turns, hmoves]
      by_cases hblocked : m.blocked
      · rw [if_pos hblocked, step_of_blocked hblocked, Nat.zero_add]
      · rw [if_neg hblocked, step_unheld (Bool.eq_false_iff.2 hblocked), run_add, run_eq_iterate 1]
        rfl
    | control action =>
      have haction : (m.control action).unheld = m.unheld :=
        unheld_control m (fun h => hstart.1 (h ▸ rfl)) (fun h => hstop.1 (h ▸ rfl))
      rw [play_cons, move, turns, hmoves, haction]

/-! ## A wait behind every action -/

/-- A wait comes right behind the next action. -/
def Gated (m : Machine A) : Prop :=
  ∀ action rest, m.progress = .working (.act action :: rest) → ∃ later, rest = .pace :: later

/-- Whatever a step leaves, a wait comes right behind the next action. -/
lemma Turn.gated {m m' : Machine A} (h : Turn m m') (hm : m.Prompt) : m'.Gated := by
  intro action rest' hnext
  cases h with
  | still hstill =>
    rcases hstill with hhalted | hblocked
    · simp [halted, hnext] at hhalted
    · simp [blocked, hnext] at hblocked
  | ended _ => cases hnext
  | failed _ _ _ _ => cases hnext
  | @unfolded task rest tasks i hprogress hunfolds =>
    have hrest : ∀ a, .act a ∉ rest := by simpa [Prompt, hprogress] using hm
    have hall : tasks ++ rest = .act action :: rest' := by simpa using hnext
    cases tasks with
    | nil =>
      rw [List.nil_append] at hall
      exact absurd (by simp [hall]) (hrest action)
    | cons first others =>
      rw [List.cons_append, List.cons.injEq] at hall
      obtain ⟨rfl, rfl⟩ := hall
      cases hunfolds with
      | executed hleaves =>
        rw [hleaves.eq_pace]
        exact ⟨rest, rfl⟩

/-- From the first step of a run on, a wait comes right behind the next action. -/
theorem gated_play (i : Interpreter A) (program : Node) {moves : List Move} (h : .step ∈ moves) :
    ((ofProgram i program).play moves).Gated := by
  obtain ⟨before, after, rfl⟩ := List.append_of_mem h
  rw [play_append, play_cons, move]
  have hprompt := prompt_play i program before
  have hstep := ((ofProgram i program).play before).turn_step
  have hinvariant : (((ofProgram i program).play before).step.play after).Prompt ∧
      (((ofProgram i program).play before).step.play after).Gated :=
    play_invariant (P := fun m => m.Prompt ∧ m.Gated) ⟨hstep.prompt hprompt, hstep.gated hprompt⟩
      (fun m hm => ⟨m.turn_step.prompt hm.1, m.turn_step.gated hm.1⟩) (fun _ _ hm => hm) after
  exact hinvariant.2

/-! ## Paused machines -/

/-- A machine that is paused, and waits or has nothing to wait for: either the next task is a wait, or
it is not running and no action is left. -/
structure Held (m : Machine A) : Prop where
  paused : m.interpreter.control.paused = true
  waits : m.interpreter.control.running = true → ∃ rest, m.progress = .working (.pace :: rest)
  idles : m.interpreter.control.running = false → ∀ action, .act action ∉ m.progress.pending

omit [Actuator A] in
/-- A paused machine that comes to a wait is held there, if it runs. -/
lemma held_of_pace {m : Machine A} {rest : List Task} (hpaused : m.interpreter.control.paused = true)
    (hprogress : m.progress = .working (.pace :: rest)) (hprompt : m.Prompt) : m.Held where
  paused := hpaused
  waits _ := ⟨rest, hprogress⟩
  idles _ action := by
    have hrest : .act action ∉ rest := by simpa [hprogress] using hprompt action
    simpa [hprogress] using hrest

/-- What is held stays where it is, and carries nothing out. -/
lemma Held.step {m : Machine (Recorder A)} (h : m.Held) : m.step.Held ∧ m.step.calls = m.calls := by
  cases hrunning : m.interpreter.control.running with
  | true =>
    obtain ⟨rest, hprogress⟩ := h.waits hrunning
    have hblocked : m.blocked := by
      simp [blocked, hprogress, RunControl.holds, hrunning, h.paused]
    rw [step_of_blocked hblocked]
    exact ⟨h, rfl⟩
  | false =>
    have hreading : m.reading? ≠ some true := by simp [reading?, hrunning]
    have hskip := step_eq_skip (h.idles hrunning) hreading
    have hidle (action : Action) : .act action ∉ m.step.progress.pending := by
      rw [hskip, pending_skip]
      exact fun hmem => h.idles hrunning action (List.mem_of_mem_tail hmem)
    constructor
    · constructor
      · rw [control_step, h.paused]
      · rw [control_step, hrunning]
        exact fun hfalse => absurd hfalse Bool.false_ne_true
      · exact fun _ => hidle
    · rw [hskip]
      exact calls_skip m

omit [Actuator A] in
/-- Of the controller's actions only a start, a stop and the end of the pause can change that. -/
lemma Held.control {m : Machine A} (h : m.Held) {action : ControlAction} (hstart : action ≠ .start)
    (hstop : action ≠ .stop) (hresume : action ≠ .resume) : (m.control action).Held := by
  cases action with
  | start => exact absurd rfl hstart
  | stop => exact absurd rfl hstop
  | resume => exact absurd rfl hresume
  | pause => exact ⟨rfl, h.waits, h.idles⟩
  | setSpeed speed => exact ⟨h.paused, h.waits, h.idles⟩

/-- A list of moves that leave a pause as it is. -/
structure Steady (moves : List Move) : Prop where
  unstarted : .control .start ∉ moves
  unstopped : .control .stop ∉ moves
  unresumed : .control .resume ∉ moves

lemma Steady.of_cons {x : Move} {moves : List Move} (h : Steady (x :: moves)) : Steady moves where
  unstarted hmem := h.unstarted (List.mem_cons_of_mem x hmem)
  unstopped hmem := h.unstopped (List.mem_cons_of_mem x hmem)
  unresumed hmem := h.unresumed (List.mem_cons_of_mem x hmem)

/-- No action among steady moves ends a pause. -/
lemma Steady.ne {action : ControlAction} {moves : List Move}
    (h : Steady (.control action :: moves)) :
    action ≠ .start ∧ action ≠ .stop ∧ action ≠ .resume := by
  refine ⟨?_, ?_, ?_⟩
  · rintro rfl
    exact h.unstarted List.mem_cons_self
  · rintro rfl
    exact h.unstopped List.mem_cons_self
  · rintro rfl
    exact h.unresumed List.mem_cons_self

omit [Actuator A] in
lemma paused_control {m : Machine A} {action : ControlAction}
    (hpaused : m.interpreter.control.paused = true) (hstart : action ≠ .start)
    (hresume : action ≠ .resume) : (m.control action).interpreter.control.paused = true := by
  cases action with
  | start => exact absurd rfl hstart
  | resume => exact absurd rfl hresume
  | stop => exact hpaused
  | pause => rfl
  | setSpeed speed => exact hpaused

/-- As long as the pause lasts, a machine that is held carries nothing out. -/
theorem calls_of_held {m : Machine (Recorder A)} (h : m.Held) {moves : List Move}
    (hmoves : Steady moves) : (m.play moves).calls = m.calls := by
  induction moves generalizing m with
  | nil => rfl
  | cons x moves ih =>
    cases x with
    | step =>
      obtain ⟨hheld, hcalls⟩ := h.step
      rw [play_cons, move, ih hheld hmoves.of_cons, hcalls]
    | control action =>
      obtain ⟨hstart, hstop, hresume⟩ := hmoves.ne
      exact ih (h.control hstart hstop hresume) hmoves.of_cons

/-- A step of a task that is no action carries nothing out. -/
lemma calls_step_of_forall_ne {m : Machine (Recorder A)}
    (h : ∀ action rest, m.progress ≠ .working (.act action :: rest)) : m.step.calls = m.calls := by
  have hturn := m.turn_step
  generalize m.step = m' at hturn ⊢
  cases hturn with
  | @unfolded task rest tasks i hprogress hunfolds =>
    cases hunfolds with
    | executed hleaves => simp [calls, hleaves.actuator_eq]
    | performed action => exact absurd hprogress (h action rest)
    | _ => rfl
  | _ => rfl

/-- As long as a pause lasts, a machine carries out its next action at most, if a wait stands behind
every action. -/
lemma exists_calls_of_paused {m : Machine (Recorder A)} {moves : List Move}
    (hpaused : m.interpreter.control.paused = true) (hprompt : m.Prompt) (hgated : m.Gated)
    (hmoves : Steady moves) :
    ∃ later, (m.play moves).calls = m.calls ++ later ∧ later.length ≤ 1 := by
  induction moves generalizing m with
  | nil => exact ⟨[], (List.append_nil _).symm, Nat.zero_le _⟩
  | cons x moves ih =>
    cases x with
    | step =>
      have hpaused' : m.step.interpreter.control.paused = true := by rw [control_step, hpaused]
      have hprompt' : m.step.Prompt := m.turn_step.prompt hprompt
      by_cases hnext : ∃ action rest, m.progress = .working (.act action :: rest)
      · obtain ⟨action, rest, hprogress⟩ := hnext
        obtain ⟨others, rfl⟩ := hgated action rest hprogress
        have hwait : m.step.progress = .working (.pace :: others) := by rw [step_of_act hprogress]
        have hheld : m.step.Held := held_of_pace hpaused' hwait hprompt'
        refine ⟨[action], ?_, Nat.le_refl 1⟩
        rw [play_cons, move, calls_of_held hheld hmoves.of_cons, calls_step_of_act hprogress]
      · have hcalls : m.step.calls = m.calls :=
          calls_step_of_forall_ne fun action rest h => hnext ⟨action, rest, h⟩
        obtain ⟨later, hlater, hlength⟩ :=
          ih hpaused' hprompt' (m.turn_step.gated hprompt) hmoves.of_cons
        exact ⟨later, by rw [play_cons, move, hlater, hcalls], hlength⟩
    | control action =>
      obtain ⟨hstart, -, hresume⟩ := hmoves.ne
      exact ih (m := m.control action) (paused_control hpaused hstart hresume) hprompt hgated
        hmoves.of_cons

/-- As long as a pause lasts, a machine that is about to carry out an action without a wait behind it
carries out one more at most. -/
lemma exists_calls_of_ungated {m : Machine (Recorder A)} {moves : List Move} {action : Action}
    {rest : List Task} (hprogress : m.progress = .working (.act action :: rest))
    (hpaused : m.interpreter.control.paused = true) (hprompt : m.Prompt) (hmoves : Steady moves) :
    (m.play moves).calls = m.calls ∨
      ∃ later, (m.play moves).calls = m.calls ++ action :: later ∧ later.length ≤ 1 := by
  induction moves generalizing m with
  | nil => exact .inl rfl
  | cons x moves ih =>
    cases x with
    | step =>
      have hpaused' : m.step.interpreter.control.paused = true := by rw [control_step, hpaused]
      obtain ⟨later, hlater, hlength⟩ := exists_calls_of_paused hpaused'
        (m.turn_step.prompt hprompt) (m.turn_step.gated hprompt) hmoves.of_cons
      refine .inr ⟨later, ?_, hlength⟩
      rw [play_cons, move, hlater, calls_step_of_act hprogress, List.append_assoc,
        List.singleton_append]
    | control other =>
      obtain ⟨hstart, -, hresume⟩ := hmoves.ne
      exact ih (m := m.control other) hprogress (paused_control hpaused hstart hresume) hprompt
        hmoves.of_cons

/-- Without a step a machine comes no further. -/
lemma progress_play_of_step_notMem {m : Machine A} {moves : List Move} (h : .step ∉ moves) :
    (m.play moves).progress = m.progress := by
  induction moves generalizing m with
  | nil => rfl
  | cons x moves ih =>
    cases x with
    | step => exact absurd List.mem_cons_self h
    | control action => exact ih (m := m.control action) fun hmem => h (List.mem_cons_of_mem _ hmem)

/-! ## Steered runs -/

/-- Whatever a controller does without starting or stopping a run, the run is the undisturbed one.

At every moment it has carried out the first actions of the undisturbed run.  When it ends, it ends as
the undisturbed run does, after the same actions and with the same variables.  And from a pause until
its end one more action is carried out at most, besides sending the actuator home if that is still to
be done. -/
theorem transparent_of_steered {i : Interpreter (Recorder A)} {program : Node} {moves : List Move}
    (hstart : .control .start ∉ moves) (hstop : .control .stop ∉ moves) :
    let whole := ofProgram i program
    let m := whole.play moves
    whole.unheld.OpensWith m.calls ∧
    (m.halted → ∃ fuel, ∀ more,
      let undisturbed := run (fuel + more) whole.unheld
      undisturbed.progress = m.progress ∧ undisturbed.calls = m.calls ∧
        undisturbed.interpreter.scope = m.interpreter.scope) ∧
    ∀ before after, moves = before ++ .control .pause :: after → .control .resume ∉ after →
      ∃ later, m.calls = (whole.play before).calls ++ later ∧
        (later.length ≤ 1 ∨ .step ∉ before ∧ ∃ rest, later = .home :: rest ∧ rest.length ≤ 1) := by
  intro whole m
  have hrun : m.unheld = run (whole.turns moves) whole.unheld := play_unheld hstart hstop
  refine ⟨?_, fun hhalted => ⟨whole.turns moves, fun more => ?_⟩, ?_⟩
  · have hopens := opensWith_run whole.unheld (whole.turns moves)
    rwa [← hrun, calls_unheld] at hopens
  · have hend : run (whole.turns moves + more) whole.unheld = m.unheld := by
      rw [run_add, ← hrun, run_eq_iterate]
      exact Function.iterate_fixed (step_of_halted (m := m.unheld) hhalted) more
    intro undisturbed
    rw [show undisturbed = m.unheld from hend]
    exact ⟨rfl, rfl, rfl⟩
  · rintro before after rfl hresume
    have hafter : Steady after := by
      refine ⟨fun h => hstart ?_, fun h => hstop ?_, hresume⟩
      · exact List.mem_append_right _ (List.mem_cons_of_mem _ h)
      · exact List.mem_append_right _ (List.mem_cons_of_mem _ h)
    let paused := (whole.play before).control .pause
    have hplay : m = paused.play after := by rw [show m = whole.play _ from rfl, play_append]; rfl
    have hprompt : paused.Prompt := prompt_play i program before
    rw [hplay]
    by_cases hbefore : .step ∈ before
    · have hgated : paused.Gated := gated_play i program hbefore
      obtain ⟨later, hlater, hlength⟩ := exists_calls_of_paused rfl hprompt hgated hafter
      exact ⟨later, hlater, .inl hlength⟩
    · have hprogress : paused.progress = .working [.act .home, .exec program] :=
        progress_play_of_step_notMem (m := whole) hbefore
      rcases exists_calls_of_ungated hprogress rfl hprompt hafter with hnone | ⟨rest, hlater, hlength⟩
      · exact ⟨[], by rw [hnone, List.append_nil]; rfl, .inl (Nat.zero_le 1)⟩
      · exact ⟨.home :: rest, hlater, .inr ⟨hbefore, rest, rfl, hlength⟩⟩

/-- A script that lifts the pen and lowers it is paused right before the pen is lifted.  While it is
paused it lifts the pen, and waits even when the speed is changed. -/
theorem transparent_of_steered_pen :
    let program : Node := .node (.keyword "program")
      [.node (.keyword "block") [.leaf (.keyword "penup"), .leaf (.keyword "pendown")],
        .leaf (.keyword "list")]
    let i : Interpreter (Recorder Walker) := .new (.new .centered) (.ofSettings {})
    let whole := ofProgram i program
    let before : List Move := .replicate 4 .step
    let after : List Move := [.step, .step, .control (.setSpeed 50), .step]
    let held := before ++ .control .pause :: after
    let moves := held ++ .control .resume :: .replicate 5 .step
    .control .start ∉ moves ∧ .control .stop ∉ moves ∧
      whole.unheld.OpensWith [.home, .penUp, .penDown] ∧
      (∃ fuel, ∀ more, let undisturbed := run (fuel + more) whole.unheld
        undisturbed.progress = .finished .completed ∧
          undisturbed.calls = [.home, .penUp, .penDown]) ∧
      (whole.play before).calls = [.home] ∧ (whole.play held).calls = [.home, .penUp] ∧
      ∃ later, (whole.play held).calls = [.home] ++ later ∧ later.length ≤ 1 := by
  intro program i whole before after held moves
  have hstart : .control .start ∉ moves := by decide
  have hstop : .control .stop ∉ moves := by decide
  have hprogress : (whole.play moves).progress = .finished .completed := by cbv
  have hcalls : (whole.play moves).calls = [.home, .penUp, .penDown] := by cbv
  have hbefore : (whole.play before).calls = [.home] := by cbv
  have hheld : (whole.play held).calls = [.home, .penUp] := by cbv
  have hstart' : .control .start ∉ held := by decide
  have hstop' : .control .stop ∉ held := by decide
  have hstep : .step ∈ before := by decide
  have hhalted : (whole.play moves).halted := by rw [halted, hprogress]
  obtain ⟨hopens, hend, -⟩ := @transparent_of_steered _ _ i program moves hstart hstop
  obtain ⟨-, -, hpause⟩ := @transparent_of_steered _ _ i program held hstart' hstop'
  obtain ⟨fuel, hfuel⟩ := hend hhalted
  obtain ⟨later, hlater, hlength⟩ := hpause before after rfl (by decide)
  refine ⟨hstart, hstop, by rwa [hcalls] at hopens, ⟨fuel, fun more => ?_⟩, hbefore, hheld, later, ?_,
    ?_⟩
  · obtain ⟨hsame, hactions, -⟩ := hfuel more
    exact ⟨hsame.trans hprogress, hactions.trans hcalls⟩
  · rwa [hbefore] at hlater
  · exact hlength.resolve_right fun h => h.1 hstep

end Machine

end Logo
