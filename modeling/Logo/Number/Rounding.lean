/-!
# Rounding quotients

Exact decimal and binary conversions all come down to one question: which whole number is nearest to
a quotient.  This module answers it once, with ties going to the even neighbour.
-/

namespace Logo

/-- The whole number nearest to `num / den`; a quotient half way between two goes to the even one.
-/
def roundDiv (num den : Nat) : Nat :=
  let below := num / den
  let rest := 2 * (num % den)
  if rest < den then below
  else if den < rest then below + 1
  else if below % 2 = 0 then below else below + 1

/-- Twice the distance from a quotient to its rounding is at most the divisor. -/
theorem roundDiv_mul_le (num den : Nat) :
    2 * (roundDiv num den * den) ≤ 2 * num + den := by
  have split := Nat.div_add_mod num den
  have comm := Nat.mul_comm den (num / den)
  unfold roundDiv
  simp only
  split
  · omega
  · split
    · rw [Nat.add_mul]; omega
    · split
      · omega
      · rw [Nat.add_mul]; omega

/-- A quotient never exceeds its rounding by more than half. -/
theorem le_roundDiv_mul (num : Nat) {den : Nat} (pos : 0 < den) :
    2 * num ≤ 2 * (roundDiv num den * den) + den := by
  have split := Nat.div_add_mod num den
  have rest := Nat.mod_lt num pos
  have comm := Nat.mul_comm den (num / den)
  unfold roundDiv
  simp only
  split
  · omega
  · split
    · rw [Nat.add_mul]; omega
    · split
      · omega
      · rw [Nat.add_mul]; omega

/-- A power of `base` with an integer exponent, as a numerator and a denominator. -/
def powRatio (base : Nat) (exponent : Int) : Nat × Nat :=
  (base.pow exponent.toNat, base.pow (-exponent).toNat)

end Logo
