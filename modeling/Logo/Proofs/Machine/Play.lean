import Logo.Session.Basic
import Mathlib.Tactic.Common

/-!
# Plays

A machine and its controller take turns in no given order.  A play is a finite part of what happens:
a list of moves, each of them a step of the machine or an action of the controller.  Whatever holds
at the start and survives every move holds throughout (`play_invariant`).

Bounded runs and sessions are plays: `exists_play_run` and `Session.exists_play_run`.
-/

namespace Logo

/-- What can happen to a machine. -/
inductive Move where
  /-- It takes a step. -/
  | step
  /-- Its controller acts. -/
  | control (action : ControlAction)
  deriving DecidableEq

namespace Machine

variable {A : Type} [Actuator A]

/-- The machine after a move. -/
def move (m : Machine A) : Move → Machine A
  | .step => m.step
  | .control action => m.control action

/-- The machine after some moves. -/
def play (m : Machine A) (moves : List Move) : Machine A := moves.foldl move m

@[simp] lemma play_nil (m : Machine A) : m.play [] = m := rfl

@[simp] lemma play_cons (m : Machine A) (x : Move) (moves : List Move) :
    m.play (x :: moves) = (m.move x).play moves := rfl

lemma play_append (m : Machine A) (moves moves' : List Move) :
    m.play (moves ++ moves') = (m.play moves).play moves' := by
  simp [play]

/-- What survives every move holds after every play. -/
theorem play_invariant {P : Machine A → Prop} {m : Machine A} (h : P m)
    (hstep : ∀ m, P m → P m.step) (hcontrol : ∀ m action, P m → P (m.control action))
    (moves : List Move) : P (m.play moves) := by
  induction moves generalizing m with
  | nil => exact h
  | cons x moves ih =>
    cases x with
    | step => exact ih (hstep m h)
    | control action => exact ih (hcontrol m action h)

/-- A bounded run is a play. -/
theorem exists_play_run (fuel : Nat) (m : Machine A) : ∃ moves, run fuel m = m.play moves := by
  induction fuel generalizing m with
  | zero => exact ⟨[], rfl⟩
  | succ fuel ih =>
    unfold run
    split
    · exact ⟨[], rfl⟩
    · obtain ⟨moves, hmoves⟩ := ih m.step
      exact ⟨.step :: moves, hmoves⟩

end Machine

namespace Session

variable {A : Type} [Actuator A]

lemma exists_play_react (s : Session A) (reaction : Reaction) :
    ∃ moves, (s.react reaction).machine = s.machine.play moves := by
  cases reaction with
  | control action => exact ⟨[.control action], rfl⟩
  | crash text? => exact ⟨[], rfl⟩

lemma exists_play_reactTo (s : Session A) (call : Nat) :
    ∃ moves, (s.reactTo call).machine = s.machine.play moves := by
  unfold reactTo
  generalize s.cues.filter (fun cue => cue.call = call) = cues
  induction cues generalizing s with
  | nil => exact ⟨[], rfl⟩
  | cons cue cues ih =>
    obtain ⟨first, hfirst⟩ := s.exists_play_react cue.reaction
    obtain ⟨moves, hmoves⟩ := ih (s.react cue.reaction)
    exact ⟨first ++ moves, by rw [List.foldl_cons, hmoves, hfirst, Machine.play_append]⟩

lemma exists_play_advance (s : Session A) :
    ∃ moves, s.advance.machine = s.machine.play moves := by
  unfold advance
  simp only
  split
  · obtain ⟨moves, hmoves⟩ := exists_play_reactTo { s with machine := s.machine.step } _
    exact ⟨.step :: moves, hmoves⟩
  · exact ⟨[.step], rfl⟩

lemma exists_play_direct? {s s' : Session A} (h : s.direct? = some s') :
    ∃ moves, s'.machine = s.machine.play moves := by
  unfold direct? at h
  split at h
  · cases h
  · rename_i action script _
    cases h
    exact ⟨[.control action], rfl⟩
  · split at h
    · cases h
      exact ⟨[], rfl⟩
    · cases h

lemma exists_play_step (s : Session A) :
    ∃ moves, s.step.machine = s.machine.play moves := by
  unfold step
  split
  · rename_i s' hs'
    obtain ⟨moves, hmoves⟩ := exists_play_direct? hs'
    split
    · exact ⟨moves, hmoves⟩
    · obtain ⟨more, hmore⟩ := s'.exists_play_advance
      exact ⟨moves ++ more, by rw [hmore, hmoves, Machine.play_append]⟩
  · split
    · exact ⟨[], rfl⟩
    · exact s.exists_play_advance

/-- Whatever the script of the controller and the reactions of the actuator are, the machine of a
session makes a play. -/
theorem exists_play_run (fuel : Nat) (s : Session A) :
    ∃ moves, (run fuel s).machine = s.machine.play moves := by
  induction fuel generalizing s with
  | zero => exact ⟨[], rfl⟩
  | succ fuel ih =>
    unfold run
    split
    · exact ⟨[], rfl⟩
    · obtain ⟨first, hfirst⟩ := s.exists_play_step
      obtain ⟨moves, hmoves⟩ := ih s.step
      exact ⟨first ++ moves, by rw [hmoves, hfirst, Machine.play_append]⟩

end Session

end Logo
