import Logo.Proofs.Number.Remainder
import Logo.Proofs.Number.Sums
import Logo.Proofs.Turtle.Canvas
import Mathlib

/-!
# The heading of a turtle

An angle is brought into the range of headings by a remainder and, if that is negative, a full turn
added to it.  The remainder of a number is within a full turn of zero, so the sum is not negative, and
where rounding makes a full turn of it the heading is zero.  What is no number is not caught: no
comparison holds of it, and it stays as it is.

A turn by a number does not overflow, because a heading is small.  So a heading is lost by turning by an
infinity or by what is no number, and then it is lost until an action sets it anew.

* `isHeading_normalizeDegrees` and `isNaN_normalizeDegrees`: what becomes of an angle.
* `Turtle.holds_perform` and `Turtle.holds_performAll`: what one action and what all of them do to a
  heading.
* `Turtle.isHeading_performAll_iff`: when the heading of a turtle is in range.
* `Turtle.not_isHeading_of_infinite_turn`: a turn that loses it.
-/

namespace Logo

open Float.Model (UnpackedFloat)
open Binary64

variable {x : Float}

/-! ## Angles -/

/-- Whether an angle is in the range of headings. -/
def IsHeading (degrees : Float) : Prop := 0 ≤ degrees ∧ degrees < 360

instance (degrees : Float) : Decidable (IsHeading degrees) := inferInstanceAs (Decidable (_ ∧ _))

lemma toRat_fullTurn : (ofFloat 360).toRat = 360 := by
  have hvalue : ofFloat 360 = .finite false 6333186975989760 (-44) := by decide +kernel
  rw [hvalue, toRat]
  norm_num

/-- A number is normalized to a heading. -/
theorem isHeading_normalizeDegrees (h : x.isFinite = true) : IsHeading (normalizeDegrees x) := by
  obtain ⟨negative, m, e, hvalue⟩ := isFinite_iff_exists.mp h
  have hdivisor : 0 < 360 ∧ 360 < 2 ^ 53 := by decide
  obtain ⟨hfinite, hle⟩ := abs_toRat_remainder_le negative m e hdivisor.1 hdivisor.2
  unfold normalizeDegrees
  rw [hvalue]
  dsimp only
  generalize (finite negative m e).remainder 360 = remainder at *
  have hturned : 0 ≤ (if remainder < 0 then remainder + 360 else remainder) := by
    split
    · refine zero_le_add hfinite (by decide +kernel) ?_
      have hlow := neg_le_of_abs_le hle
      rw [toRat_fullTurn]
      push_cast at hlow
      linarith
    · rename_i hnot
      exact (lt_or_le (isNaN_of_isFinite hfinite) (by decide +kernel)).resolve_left hnot
  generalize (if remainder < 0 then remainder + 360 else remainder) = turned at *
  split
  · decide +kernel
  · rename_i hnot
    exact ⟨hturned, (lt_or_le (isNaN_of_zero_le hturned) (by decide +kernel)).resolve_right hnot⟩

/-- What is no number is not normalized to one. -/
theorem isNaN_normalizeDegrees (h : x.isFinite = false) : (normalizeDegrees x).isNaN = true := by
  have hremainder : (ofFloat x).remainder 360 = Float.ofBits 0x7ff8000000000000 := by
    rcases ofFloat_of_not_isFinite h with hvalue | ⟨negative, hvalue⟩
    · rw [hvalue]
      rfl
    · rw [hvalue]
      rfl
  unfold normalizeDegrees
  rw [hremainder]
  decide +kernel

/-- A heading is a number, and a small one. -/
lemma IsHeading.isFinite_and_lt (h : IsHeading x) :
    x.isFinite = true ∧ |(ofFloat x).toRat| < 2 ^ 53 := by
  have hnonneg := zero_le_iff.mp h.1
  have hlt : x.toModel.unpack.lt (.finite .positive 6333186975989760 (-44) (by decide)) = true :=
    lt_iff.mp h.2
  have hvalue := ofFloat_eq x
  change x.toModel.unpack.isFinite = true ∧ _
  generalize x.toModel.unpack = u at *
  cases u with
  | notANumber => exact absurd hlt Bool.false_ne_true
  | infinity s =>
    cases s with
    | negative => simp [IsNonneg, sign?] at hnonneg
    | positive => exact absurd hlt Bool.false_ne_true
  | zero s =>
    refine ⟨rfl, ?_⟩
    rw [hvalue, toRat_ofUnpacked_zero, abs_zero]
    norm_num
  | finite s m e hm =>
    refine ⟨rfl, ?_⟩
    have hexponent : e ≤ 0 := by
      cases s with
      | negative => simp [IsNonneg, sign?] at hnonneg
      | positive =>
        by_contra hpos
        have hgt : compare e (-44) = .gt := Int.compare_eq_gt.mpr (by omega)
        simp [UnpackedFloat.lt, UnpackedFloat.compare, hgt] at hlt
    obtain ⟨hmantissa, -⟩ := mantissa_lt_and_exponent_le hvalue
    rw [hvalue, ofUnpacked, abs_toRat_finite]
    calc (m : ℚ) * 2 ^ e ≤ m * 1 := by
          gcongr
          exact zpow_le_one_of_nonpos₀ one_le_two hexponent
      _ < 2 ^ 53 := by
          rw [mul_one]
          exact_mod_cast hmantissa

/-- A small number and any double together stay below the bound from which sums overflow. -/
lemma abs_add_lt_overflowBound {a d : ℚ} (ha : |a| < 2 ^ 53) (hd : |d| ≤ 2 ^ 1024 - 2 ^ 971) :
    |a + d| < overflowBound := by
  have hsmall : |a| < 2 ^ 970 := ha.trans (pow_lt_pow_right₀ one_lt_two (by decide))
  calc |a + d| ≤ |a| + |d| := abs_add_le a d
    _ < 2 ^ 970 + (2 ^ 1024 - 2 ^ 971) := add_lt_add_of_lt_of_le hsmall hd
    _ = overflowBound := by
      have hdouble : (2 : ℚ) ^ 971 = 2 ^ 970 + 2 ^ 970 := by rw [pow_succ, mul_two]
      rw [overflowBound, hdouble, add_sub_left_comm, sub_add_cancel_left, sub_eq_add_neg]

namespace Turtle

/-! ## Actions -/

/-- Whether there is a heading after an action.  A turn by what is no number loses it, and only what
sets it anew brings it back. -/
def keepsHeading (hasHeading : Bool) : Action → Bool
  | .right degrees | .left degrees => hasHeading && degrees.isFinite
  | .face degrees => degrees.isFinite
  | .home => true
  | .forward _ | .penUp | .penDown | .jump _ _ | .color _ => hasHeading

/-- What is known of the heading of a turtle. -/
structure Holds (hasHeading : Bool) (heading : Float) : Prop where
  /-- It is in range as long as it was not lost. -/
  isHeading : hasHeading = true → IsHeading heading
  /-- It is no number once it was lost. -/
  isNaN : hasHeading = false → heading.isNaN = true

variable {t : Turtle} {hasHeading : Bool} {heading : Float}

lemma holds_normalizeDegrees (degrees : Float) :
    Holds degrees.isFinite (normalizeDegrees degrees) :=
  ⟨isHeading_normalizeDegrees, isNaN_normalizeDegrees⟩

lemma holds_normalizeDegrees_zero : Holds true (normalizeDegrees 0) := by
  have hzero : (0 : Float).isFinite = true := by decide +kernel
  exact hzero ▸ holds_normalizeDegrees 0

lemma Holds.isFinite_eq (h : Holds hasHeading heading) : heading.isFinite = hasHeading := by
  cases hasHeading with
  | false => exact isFinite_of_isNaN (h.isNaN rfl)
  | true => exact (h.isHeading rfl).isFinite_and_lt.1

/-- Even what is lost counts as a small number, as none has the value zero. -/
lemma Holds.abs_toRat_lt (h : Holds hasHeading heading) : |(ofFloat heading).toRat| < 2 ^ 53 := by
  cases hasHeading with
  | false =>
    have hzero : (ofFloat heading).toRat = 0 := by
      rcases ofFloat_of_not_isFinite h.isFinite_eq with hvalue | ⟨negative, hvalue⟩
      · rw [hvalue, toRat]
      · rw [hvalue, toRat]
    rw [hzero, abs_zero]
    norm_num
  | true => exact (h.isHeading rfl).isFinite_and_lt.2

/-- A turn clockwise gives a number if there was a heading and the turn is by a number. -/
lemma Holds.isFinite_add (h : Holds hasHeading heading) (degrees : Float) :
    (heading + degrees).isFinite = (hasHeading && degrees.isFinite) := by
  rw [← h.isFinite_eq]
  exact Binary64.isFinite_add (abs_add_lt_overflowBound h.abs_toRat_lt (abs_toRat_le degrees))

/-- So does a turn counterclockwise. -/
lemma Holds.isFinite_sub (h : Holds hasHeading heading) (degrees : Float) :
    (heading - degrees).isFinite = (hasHeading && degrees.isFinite) := by
  have hdegrees : |-(ofFloat degrees).toRat| ≤ 2 ^ 1024 - 2 ^ 971 := by
    rw [abs_neg]
    exact abs_toRat_le degrees
  rw [← h.isFinite_eq]
  refine Binary64.isFinite_sub ?_
  rw [sub_eq_add_neg]
  exact abs_add_lt_overflowBound h.abs_toRat_lt hdegrees

lemma heading_turnTo (t : Turtle) (degrees : Float) :
    (t.turnTo degrees).heading = normalizeDegrees degrees := rfl

/-- An action keeps what is known of the heading. -/
theorem holds_perform (h : Holds hasHeading t.heading) (action : Action) :
    Holds (keepsHeading hasHeading action) (t.perform action).heading := by
  cases action with
  | right degrees =>
    rw [keepsHeading, ← h.isFinite_add]
    exact holds_normalizeDegrees _
  | left degrees =>
    rw [keepsHeading, ← h.isFinite_sub]
    exact holds_normalizeDegrees _
  | face degrees =>
    rw [keepsHeading, ← isFinite_neg]
    exact holds_normalizeDegrees _
  | home =>
    have hheading : (t.perform .home).heading = normalizeDegrees 0 := heading_turnTo _ 0
    rw [hheading]
    exact holds_normalizeDegrees_zero
  | forward distance => exact h
  | penUp => exact h
  | penDown => exact h
  | jump x y => exact h
  | color rgb => exact h

/-- So do actions one after the other. -/
theorem holds_performAll (h : Holds hasHeading t.heading) (actions : List Action) :
    Holds (actions.foldl keepsHeading hasHeading) (t.performAll actions).heading := by
  induction actions generalizing t hasHeading with
  | nil => exact h
  | cons action actions ih => exact ih (holds_perform h action)

lemma holds_new (canvas : Canvas) : Holds true (new canvas).heading := by
  have hheading : (new canvas).heading = normalizeDegrees 0 := heading_turnTo _ 0
  rw [hheading]
  exact holds_normalizeDegrees_zero

/-- The heading of a turtle is in range unless a turn by an infinity or by what is no number has lost
it, and where it is lost it is no number. -/
theorem isHeading_performAll_iff (canvas : Canvas) (actions : List Action) :
    (0 ≤ ((new canvas).performAll actions).heading ∧
        ((new canvas).performAll actions).heading < 360 ↔
      actions.foldl keepsHeading true = true) ∧
    (((new canvas).performAll actions).heading.isNaN = true ↔
      actions.foldl keepsHeading true = false) := by
  have hholds := holds_performAll (holds_new canvas) actions
  generalize ((new canvas).performAll actions).heading = heading at *
  generalize actions.foldl keepsHeading true = hasHeading at *
  have hapart : IsHeading heading → heading.isNaN ≠ true := by
    intro hheading
    rw [isNaN_of_zero_le hheading.1]
    exact Bool.false_ne_true
  cases hasHeading with
  | true =>
    have hheading := hholds.isHeading rfl
    exact ⟨iff_of_true hheading rfl, iff_of_false (hapart hheading) Bool.true_eq_false.mp⟩
  | false =>
    have hnan := hholds.isNaN rfl
    exact ⟨iff_of_false (fun hheading => hapart hheading hnan) Bool.false_ne_true,
      iff_of_true hnan rfl⟩

/-- A turn by the quotient of one and zero leaves a turtle without a heading. -/
theorem not_isHeading_of_infinite_turn :
    ¬ (0 ≤ ((new (.new 200 100)).performAll [.right (1 / 0)]).heading ∧
      ((new (.new 200 100)).performAll [.right (1 / 0)]).heading < 360) := by
  decide +kernel

end Turtle

end Logo
