import Logo.Control
import Mathlib.Tactic.Common

/-!
# Delays

A delay grows by one step for every speed below the fastest.  The speed is in range whatever the
controller does, but the step is any duration, and ninety-nine of them may be too long for one.

* `RunControl.speed_applyAll`: the speed is the one that was asked for last.
* `RunControl.delay_eq_endless_iff`, `RunControl.delay_eq_lasting_iff` and
  `RunControl.delay_eq_tooLong_iff`: the three delays.
* `RunControl.delay_linear`: how long the delay is after any actions, and for which steps it is always a
  duration.
-/

namespace Logo

/-! ## Multiples of durations -/

namespace Duration

lemma times?_eq_some_iff {step d : Duration} {n : Nat} :
    step.times? n = some d ↔ d.nanoseconds = step.nanoseconds * n := by
  obtain ⟨nanoseconds, hlimit⟩ := d
  unfold times? ofNanoseconds?
  constructor
  · intro h
    split at h
    · obtain ⟨rfl⟩ := Option.some.inj h
      rfl
    · nomatch h
  · rintro rfl
    exact dif_pos hlimit

lemma times?_eq_none_iff {step : Duration} {n : Nat} :
    step.times? n = none ↔ limit ≤ step.nanoseconds * n := by
  unfold times? ofNanoseconds?
  split_ifs with hlt
  · exact iff_of_false nofun (Nat.not_le.mpr hlt)
  · exact iff_of_true rfl (Nat.not_lt.mp hlt)

end Duration

namespace RunControl

/-! ## Speeds -/

/-- The speed that was asked for last, where the given one was asked for before. -/
def askedSpeed (speed : Nat) : List ControlAction → Nat
  | [] => speed
  | .setSpeed later :: actions => askedSpeed later actions
  | .start :: actions | .stop :: actions | .pause :: actions | .resume :: actions =>
    askedSpeed speed actions

variable {c : RunControl} {speed : Nat}

/-- Whatever the controller does, the speed is the one asked for last, cut off at the fastest. -/
theorem speed_applyAll (h : c.speed = min speed maxSpeed) (actions : List ControlAction) :
    (c.applyAll actions).speed = min (askedSpeed speed actions) maxSpeed := by
  induction actions generalizing c speed with
  | nil => exact h
  | cons action actions ih =>
    cases action with
    | setSpeed later => exact ih (c := c.apply (.setSpeed later)) rfl
    | start => exact ih (c := c.apply .start) h
    | stop => exact ih (c := c.apply .stop) h
    | pause => exact ih (c := c.apply .pause) h
    | resume => exact ih (c := c.apply .resume) h

/-- No action changes the step. -/
theorem step_applyAll (c : RunControl) (actions : List ControlAction) :
    (c.applyAll actions).step = c.step := by
  induction actions generalizing c with
  | nil => rfl
  | cons action actions ih =>
    have hstep : (c.apply action).step = c.step := by cases action <;> rfl
    exact (ih (c.apply action)).trans hstep

/-! ## Delays -/

lemma delay_eq_endless_iff : c.delay = .endless ↔ c.speed = 0 := by
  unfold delay
  split_ifs with hspeed
  · exact iff_of_true rfl hspeed
  · refine iff_of_false (fun h => ?_) hspeed
    split at h <;> nomatch h

lemma delay_eq_lasting_iff {d : Duration} :
    c.delay = .lasting d ↔
      c.speed ≠ 0 ∧ d.nanoseconds = c.step.nanoseconds * (maxSpeed - c.speed) := by
  unfold delay
  rw [← Duration.times?_eq_some_iff]
  split_ifs with hspeed
  · exact iff_of_false nofun fun h => h.1 hspeed
  · cases c.step.times? (maxSpeed - c.speed) <;> simp [hspeed]

lemma delay_eq_tooLong_iff :
    c.delay = .tooLong ↔
      c.speed ≠ 0 ∧ Duration.limit ≤ c.step.nanoseconds * (maxSpeed - c.speed) := by
  unfold delay
  rw [← Duration.times?_eq_none_iff]
  split_ifs with hspeed
  · exact iff_of_false nofun fun h => h.1 hspeed
  · cases c.step.times? (maxSpeed - c.speed) <;> simp [hspeed]

/-- At no speed a delay is too long if it is not at the slowest one. -/
lemma delay_ne_tooLong (h : c.step.nanoseconds * (maxSpeed - 1) < Duration.limit) :
    c.delay ≠ .tooLong := by
  rw [Ne, delay_eq_tooLong_iff]
  rintro ⟨hspeed, hlimit⟩
  have hpos : 1 ≤ c.speed := Nat.one_le_iff_ne_zero.mpr hspeed
  have hle : c.step.nanoseconds * (maxSpeed - c.speed) ≤ c.step.nanoseconds * (maxSpeed - 1) :=
    Nat.mul_le_mul_left _ (Nat.sub_le_sub_left hpos _)
  exact absurd (Nat.le_trans hlimit hle) (Nat.not_le.mpr h)

/-- Whatever a controller does, the speed is the one that it asked for last, and at most the fastest.  The
delay is endless at speed 0.  At any other speed it is one step for every speed up to the fastest, if
there is such a duration, and else too long.

No delay is ever too long exactly if that of the slowest speed is not, which depends on the step. -/
theorem delay_linear (step : Duration) :
    (∀ speed actions,
      let c := (new speed step).applyAll actions
      c.speed = min (askedSpeed speed actions) maxSpeed ∧ c.speed ≤ maxSpeed ∧
        (c.delay = .endless ↔ c.speed = 0) ∧
        (∀ d, c.delay = .lasting d ↔
          c.speed ≠ 0 ∧ d.nanoseconds = step.nanoseconds * (maxSpeed - c.speed)) ∧
        (c.delay = .tooLong ↔
          c.speed ≠ 0 ∧ Duration.limit ≤ step.nanoseconds * (maxSpeed - c.speed))) ∧
    ((∀ speed actions, ((new speed step).applyAll actions).delay ≠ .tooLong) ↔
      step.nanoseconds * (maxSpeed - 1) < Duration.limit) := by
  constructor
  · intro speed actions c
    have hspeed : c.speed = min (askedSpeed speed actions) maxSpeed := speed_applyAll rfl actions
    have hstep : c.step = step := step_applyAll _ actions
    rw [← hstep]
    exact ⟨hspeed, hspeed ▸ Nat.min_le_right _ _, delay_eq_endless_iff,
      fun _ => delay_eq_lasting_iff, delay_eq_tooLong_iff⟩
  · constructor
    · intro h
      by_contra hlimit
      exact h 1 [] (delay_eq_tooLong_iff.mpr ⟨Nat.one_ne_zero, Nat.not_lt.mp hlimit⟩)
    · intro h speed actions
      refine delay_ne_tooLong ?_
      rw [step_applyAll]
      exact h

/-- At the slowest speed, the longest duration is too long a step. -/
theorem delay_tooLong_of_longest :
    let longest : Duration := { nanoseconds := Duration.limit - 1 }
    (new 1 longest).speed ≠ 0 ∧ (new 1 longest).delay = .tooLong := by
  decide

end RunControl

end Logo
