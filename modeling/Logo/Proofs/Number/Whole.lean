import Logo.Proofs.Number.Order
import Logo.Proofs.Number.Remainder
import Mathlib

/-!
# Whole numbers among the doubles

The fraction of a double is computed as a remainder and rounded, and what is rounded may vanish.  The
fraction of a double does not: it is a multiple of the last bit of the double, so it is zero or at least
as large as the smallest double.  A cast drops it, and keeps what is within the bounds.

* `nearestBits_pos`: what is not rounded to zero.
* `fraction_bne_zero_iff`: the fraction of a double is zero exactly if the double is a whole number.
* `toWhole_of_toRat_eq`: a whole number within the bounds is cast to itself.
* `toWhole_of_zero_le`: a number within the bounds that is not negative is cast to its whole part.
-/

namespace Logo.Binary64

variable {num den m : ℕ} {e : ℤ} {negative : Bool}

/-! ## Values as quotients -/

lemma powRatio_snd_of_nonneg (h : 0 ≤ e) : (powRatio 2 e).2 = 1 := by
  change 2 ^ (-e).toNat = 1
  rw [Int.toNat_of_nonpos (Int.neg_nonpos_of_nonneg h), pow_zero]

lemma powRatio_fst_of_nonpos (h : e ≤ 0) : (powRatio 2 e).1 = 1 := by
  change 2 ^ e.toNat = 1
  rw [Int.toNat_of_nonpos h, pow_zero]

/-- A value as the quotient that it is computed with. -/
lemma mul_zpow_eq_div (m : ℕ) (e : ℤ) :
    (m : ℚ) * 2 ^ e = ((m * (powRatio 2 e).1 : ℕ) : ℚ) / ((powRatio 2 e).2 : ℕ) := by
  rw [eq_div_iff (powRatio_two_pos e).ne', Nat.cast_mul, powRatio_two, mul_assoc]

/-- The whole part of a value as it is computed. -/
lemma floor_mul_zpow (m : ℕ) (e : ℤ) :
    ⌊(m : ℚ) * 2 ^ e⌋₊ = m * (powRatio 2 e).1 / (powRatio 2 e).2 := by
  rw [mul_zpow_eq_div, Nat.floor_div_eq_div]

/-- A value is a whole number if the quotient has no remainder. -/
lemma exists_toRat_eq_iff :
    (∃ n : ℤ, (finite negative m e).toRat = n) ↔ m * (powRatio 2 e).1 % (powRatio 2 e).2 = 0 := by
  have hpos := powRatio_two_pos e
  constructor
  · rintro ⟨n, hn⟩
    have habs : (m : ℚ) * 2 ^ e = (n.natAbs : ℕ) := by
      rw [← abs_toRat_finite negative, hn, Nat.cast_natAbs, Int.cast_abs]
    rw [mul_zpow_eq_div, div_eq_iff hpos.ne'] at habs
    have hmul : m * (powRatio 2 e).1 = n.natAbs * (powRatio 2 e).2 := by exact_mod_cast habs
    rw [hmul, Nat.mul_mod_left]
  · intro hmod
    have hmul : m * (powRatio 2 e).1 = m * (powRatio 2 e).1 / (powRatio 2 e).2 * (powRatio 2 e).2 :=
      (Nat.div_mul_cancel (Nat.dvd_of_mod_eq_zero hmod)).symm
    have hvalue : (m : ℚ) * 2 ^ e = ((m * (powRatio 2 e).1 / (powRatio 2 e).2 : ℕ) : ℚ) := by
      rw [mul_zpow_eq_div, div_eq_iff hpos.ne']
      exact_mod_cast hmul
    cases negative with
    | false => exact ⟨_, hvalue.trans (Int.cast_natCast _).symm⟩
    | true =>
      refine ⟨-((m * (powRatio 2 e).1 / (powRatio 2 e).2 : ℕ) : ℤ), ?_⟩
      rw [Int.cast_neg, Int.cast_natCast, ← hvalue]
      exact neg_mul _ _

/-! ## What vanishes -/

/-- What is not below the smallest double is not rounded to zero. -/
lemma nearestBits_pos (hden : 0 < den) (hnum : 0 < num) (h : (2 : ℚ) ^ minExponent * den ≤ num) :
    0 < nearestBits num den := by
  obtain ⟨leading, -, -, hlast⟩ := exists_lastBit_eq hnum hden
  have hle : minExponent ≤ lastBit num den := hlast ▸ le_max_right _ _
  unfold nearestBits
  rw [if_neg hnum.ne']
  refine lt_min ?_ (by decide)
  change 0 < roundDiv (num * (powRatio 2 (lastBit num den)).2) (den * (powRatio 2 (lastBit num den)).1) +
    (lastBit num den - minExponent).toNat * 2 ^ 52
  rcases hle.eq_or_lt with heq | hlt
  · -- on the grid of the smallest double the quotient is at least one
    have hquotient : den * (powRatio 2 (lastBit num den)).1 ≤ num * (powRatio 2 (lastBit num den)).2 := by
      rw [← Nat.cast_le (α := ℚ), Nat.cast_mul, Nat.cast_mul, powRatio_two, ← mul_assoc, ← heq,
        mul_comm (den : ℚ)]
      exact mul_le_mul_of_nonneg_right h (powRatio_two_pos minExponent).le
    have hpos : 0 < den * (powRatio 2 (lastBit num den)).1 := Nat.mul_pos hden (Nat.two_pow_pos _)
    have hone := (Nat.div_pos hquotient hpos).trans_le (div_le_roundDiv _ _)
    exact Nat.add_pos_left hone _
  · have hplaces : 0 < (lastBit num den - minExponent).toNat := by omega
    exact Nat.add_pos_right _ (Nat.mul_pos hplaces (Nat.two_pow_pos _))

lemma toRat_ofFloat_zero : (ofFloat 0).toRat = 0 := by
  have hvalue : ofFloat 0 = finite false 0 minExponent := rfl
  rw [hvalue, toRat]
  simp

/-- The value of a double nearest to a quotient is zero if its pattern is. -/
lemma toRat_nearest_eq_zero_iff (hfinite : (nearest negative num den).isFinite = true) :
    (ofFloat (nearest negative num den)).toRat = 0 ↔ nearestBits num den = 0 := by
  have hlt := nearestBits_lt num den
  obtain ⟨sign, m, e, hvalue⟩ := isFinite_iff_exists.mp hfinite
  have habs := abs_toRat_finite sign m e
  rw [hvalue, ← abs_eq_zero, habs, mul_eq_zero, or_iff_left (zpow_pos two_pos e).ne', Nat.cast_eq_zero]
  rw [ofFloat_nearest] at hvalue
  obtain ⟨-, hparts⟩ := ofBits_eq_finite_iff.mp hvalue
  -- only a pattern without fraction and exponent bits has no mantissa
  cases negative
  · simp only [Bool.false_eq_true, if_false] at hparts
    omega
  · simp only [if_true] at hparts
    omega

/-- The fraction of a double is not rounded to zero. -/
lemma nearestBits_fraction_eq_zero_iff (m : ℕ) (he : minExponent ≤ e) :
    nearestBits (m * (powRatio 2 e).1 % (powRatio 2 e).2) (powRatio 2 e).2 = 0 ↔
      m * (powRatio 2 e).1 % (powRatio 2 e).2 = 0 := by
  have hdown : 0 < (powRatio 2 e).2 := Nat.two_pow_pos _
  constructor
  · intro hbits
    by_contra hmod
    have hnum := Nat.pos_of_ne_zero hmod
    -- a whole number has no fraction, and else the last bit is a unit fraction
    have hup : (powRatio 2 e).1 = 1 := by
      rcases le_total 0 e with hle | hle
      · rw [powRatio_snd_of_nonneg hle, Nat.mod_one] at hmod
        exact absurd rfl hmod
      · exact powRatio_fst_of_nonpos hle
    have hlast : (2 : ℚ) ^ minExponent * (powRatio 2 e).2 ≤ 1 := by
      calc (2 : ℚ) ^ minExponent * (powRatio 2 e).2 ≤ 2 ^ e * (powRatio 2 e).2 := by
            have hscale : (2 : ℚ) ^ minExponent ≤ 2 ^ e := zpow_le_zpow_right₀ one_le_two he
            gcongr
        _ = 1 := by rw [← powRatio_two, hup, Nat.cast_one]
    have hpos := nearestBits_pos hdown hnum (hlast.trans (by exact_mod_cast hnum))
    exact hpos.ne' hbits
  · intro hmod
    rw [hmod]
    rfl

/-- The fraction of a double is zero exactly if the double is a whole number. -/
theorem fraction_bne_zero_iff {x : Float} (hx : x.isFinite = true) :
    ((ofFloat x).fraction != 0) = true ↔ ¬ ∃ n : ℤ, (ofFloat x).toRat = n := by
  obtain ⟨negative, m, e, hvalue⟩ := isFinite_iff_exists.mp hx
  have hexponent : minExponent ≤ e := (isCanonical_of_ofBits hvalue).le_exponent
  obtain ⟨hfinite, -⟩ := abs_toRat_remainder_le negative m e Nat.one_pos (by decide)
  have hfraction : (finite negative m e).remainder 1 =
      nearest negative (m * (powRatio 2 e).1 % (powRatio 2 e).2) (powRatio 2 e).2 := by
    unfold remainder
    dsimp only
    rw [Nat.one_mul]
  rw [hfraction] at hfinite
  rw [hvalue, fraction, hfraction, bne, Bool.not_eq_true', ← Bool.not_eq_true,
    beq_iff_toRat hfinite rfl, toRat_ofFloat_zero, toRat_nearest_eq_zero_iff hfinite,
    nearestBits_fraction_eq_zero_iff m hexponent, exists_toRat_eq_iff]

/-! ## Casts -/

/-- A number is cast by dropping its fraction, which is within the bounds if the number is. -/
lemma toWhole_eq {low high n : ℤ}
    (hn : (if negative then -(⌊(m : ℚ) * 2 ^ e⌋₊ : ℤ) else ⌊(m : ℚ) * 2 ^ e⌋₊) = n)
    (hlow : low ≤ n) (hhigh : n ≤ high) : (finite negative m e).toWhole low high = n := by
  obtain ⟨up, down, hratio⟩ : ∃ up down, powRatio 2 e = (up, down) := ⟨_, _, rfl⟩
  rw [floor_mul_zpow, hratio] at hn
  rw [toWhole, hratio]
  dsimp only at hn ⊢
  rw [hn, if_neg (not_lt.mpr hlow), if_neg (not_lt.mpr hhigh)]

/-- A whole number within the bounds is cast to itself. -/
theorem toWhole_of_toRat_eq {low high n : ℤ} (hvalue : (finite negative m e).toRat = n)
    (hlow : low ≤ n) (hhigh : n ≤ high) : (finite negative m e).toWhole low high = n := by
  have habs : (m : ℚ) * 2 ^ e = (n.natAbs : ℕ) := by
    rw [← abs_toRat_finite negative, hvalue, Nat.cast_natAbs, Int.cast_abs]
  have hpos : (0 : ℚ) ≤ m * 2 ^ e := by positivity
  refine toWhole_eq ?_ hlow hhigh
  rw [habs, Nat.floor_natCast]
  cases negative with
  | false =>
    have hn : (m : ℚ) * 2 ^ e = n := hvalue
    rw [hn, Int.cast_nonneg_iff] at hpos
    exact Int.natAbs_of_nonneg hpos
  | true =>
    have hn : -((m : ℚ) * 2 ^ e) = n := (neg_mul _ _).symm.trans hvalue
    rw [← neg_nonpos, hn, Int.cast_nonpos] at hpos
    exact (Int.eq_neg_natAbs_of_nonpos hpos).symm

/-- A number within the bounds that is not negative is cast to its whole part. -/
theorem toWhole_of_zero_le {high : ℤ} (hzero : 0 ≤ (finite negative m e).toRat)
    (hhigh : (finite negative m e).toRat ≤ high) :
    (finite negative m e).toWhole 0 high = ⌊(finite negative m e).toRat⌋ := by
  have habs : (m : ℚ) * 2 ^ e = (finite negative m e).toRat := by
    rw [← abs_toRat_finite negative, abs_of_nonneg hzero]
  have hlow : 0 ≤ ⌊(finite negative m e).toRat⌋ := Int.floor_nonneg.mpr hzero
  have hfloor : ⌊(finite negative m e).toRat⌋ ≤ high := by
    exact_mod_cast (Int.floor_le _).trans hhigh
  refine toWhole_eq ?_ hlow hfloor
  rw [habs]
  cases negative with
  | false => exact Int.natCast_floor_eq_floor hzero
  | true =>
    -- negative zero is the only one with this sign
    have hneg : (finite true m e).toRat = -((m : ℚ) * 2 ^ e) := neg_mul _ _
    have hvalue : (finite true m e).toRat = 0 := by linarith
    rw [hvalue]
    simp

end Logo.Binary64
