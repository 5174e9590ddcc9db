import Logo.Proofs.Number.Patterns
import Mathlib

/-!
# Sums of doubles

A sum of doubles is computed exactly and rounded once, and rounding moves a number by at most half of
its last bit.  So a sum is a number as long as the exact sum stays below the largest double and half a
bit, and it is not negative if the exact sum is not.  A difference is the sum with the negative, and
from an infinity or from what is no number there is no way back.

* `roundedMantissa_shifted_mul_le`: what rounding adds.
* `isPackable_round`: rounding does not overflow below the bound.
* `isFinite_add`, `isFinite_sub` and `isFinite_neg`: which sums, differences and negatives are numbers.
* `zero_le_add`: which sums are not negative.
-/

namespace Logo.Binary64

open Float.Model (Format UnpackedFloat totalExponent)
open Float.Model.UnpackedFloat

/-! ## Rounding -/

/-- The largest double and half a bit more; what is below does not overflow when it is rounded. -/
def overflowBound : ℚ := 2 ^ 1024 - 2 ^ 970

lemma targetExponent_eq (total : ℤ) :
    Format.binary64.targetExponent total = max (total - 53) (-1074) := rfl

/-- The place of the first bit of a number. -/
lemma log2_add_lt {m : ℕ} {e k : ℤ} (hm : m ≠ 0) (h : (m : ℚ) * 2 ^ e < 2 ^ k) :
    (m.log2 : ℤ) + e < k := by
  have hself : ((2 : ℚ) ^ m.log2) ≤ m := by exact_mod_cast Nat.log2_self_le hm
  have hpow : (2 : ℚ) ^ ((m.log2 : ℤ) + e) < 2 ^ k := by
    rw [zpow_add₀ two_ne_zero, zpow_natCast]
    exact lt_of_le_of_lt (by gcongr) h
  exact (zpow_lt_zpow_iff_right₀ one_lt_two).mp hpow

/-- A mantissa after some of its bits were shifted out. -/
def shifted (m n : ℕ) : ExtendedMantissa := ExtendedMantissa.ofMantissaAndAccuracy m .exact >>> n

/-- What is left and the last bit shifted out are at most the doubled number. -/
lemma shifted_le (m n : ℕ) :
    (2 * (shifted m n).mantissa + (shifted m n).roundBit.toNat) * 2 ^ n ≤ 2 * m := by
  induction n with
  | zero => exact Nat.le_of_eq (Nat.mul_one _)
  | succ n ih =>
    have hstep : 2 * (shifted m (n + 1)).mantissa + (shifted m (n + 1)).roundBit.toNat =
        (shifted m n).mantissa := by
      change 2 * (shifted m n).shiftRightOne.mantissa +
        (shifted m n).shiftRightOne.roundBit.toNat = _
      simp only [ExtendedMantissa.shiftRightOne]
      rcases Nat.mod_two_eq_zero_or_one (shifted m n).mantissa with h | h <;> simp [h] <;> omega
    rw [hstep]
    calc (shifted m n).mantissa * 2 ^ (n + 1) = (2 * (shifted m n).mantissa) * 2 ^ n := by ring
      _ ≤ (2 * (shifted m n).mantissa + (shifted m n).roundBit.toNat) * 2 ^ n := by gcongr; omega
      _ ≤ 2 * m := ih

lemma roundedMantissa_le (em : ExtendedMantissa) :
    2 * em.roundedMantissa ≤ 2 * em.mantissa + em.roundBit.toNat + 1 := by
  obtain ⟨m, _ | _, _ | _⟩ := em <;>
    simp [ExtendedMantissa.roundedMantissa, ExtendedMantissa.accuracy,
      Accuracy.roundToNearestEven] <;> omega

/-- Rounding off bits adds at most half of the last bit that is left. -/
lemma roundedMantissa_shifted_mul_le (m n : ℕ) :
    2 * (shifted m n).roundedMantissa * 2 ^ n ≤ 2 * m + 2 ^ n := by
  calc 2 * (shifted m n).roundedMantissa * 2 ^ n
      ≤ (2 * (shifted m n).mantissa + (shifted m n).roundBit.toNat + 1) * 2 ^ n := by
        gcongr
        exact roundedMantissa_le _
    _ = (2 * (shifted m n).mantissa + (shifted m n).roundBit.toNat) * 2 ^ n + 2 ^ n := by ring
    _ ≤ 2 * m + 2 ^ n := Nat.add_le_add_right (shifted_le m n) _

/-- Shifting to a smaller exponent keeps the number. -/
lemma shiftLeft_mul_zpow (m : ℕ) {e t : ℤ} :
    ((m <<< (e - t).toNat : ℕ) : ℚ) * 2 ^ (e - (e - t).toNat) = m * 2 ^ e := by
  rw [Nat.shiftLeft_eq, Nat.cast_mul, Nat.cast_pow, Nat.cast_ofNat, mul_assoc, ← zpow_natCast,
    ← zpow_add₀ two_ne_zero]
  congr 2
  omega

/-- Where the last bit of a number goes if it is not too large. -/
lemma targetExponent_le {m : ℕ} {e : ℤ} (he : e ≤ 971) (h : (m : ℚ) * 2 ^ e < 2 ^ 1024) :
    Format.binary64.targetExponent (totalExponent m e) ≤ 971 := by
  have hlog : (m.log2 : ℤ) + e < 1024 := by
    rcases eq_or_ne m 0 with rfl | hm
    · rw [Nat.log2_zero]
      omega
    · exact log2_add_lt hm (by exact_mod_cast h)
  rw [targetExponent_eq, totalExponent]
  omega

lemma overflowBound_lt : overflowBound < 2 ^ 1024 := sub_lt_self _ (by positivity)

lemma sign?_roundWithAccuracy (sign : Sign) (m : ℕ) (e : ℤ) (accuracy : Accuracy) :
    sign? (roundWithAccuracy Format.binary64 sign m e accuracy) = some sign := by
  unfold roundWithAccuracy
  dsimp only
  split <;> rfl

/-- The first rounding of a number below the bound stays below the next power of two. -/
lemma roundedMantissa_mul_zpow_lt {m n : ℕ} {e : ℤ} (he : e + n ≤ 971)
    (h : (m : ℚ) * 2 ^ e < overflowBound) :
    ((shifted m n).roundedMantissa : ℚ) * 2 ^ (e + n) < 2 ^ 1024 := by
  have hround := roundedMantissa_shifted_mul_le m n
  generalize (shifted m n).roundedMantissa = r at *
  replace hround : 2 * (r : ℚ) * 2 ^ n ≤ 2 * m + 2 ^ n := by exact_mod_cast hround
  have hsplit : (2 : ℚ) ^ (e + n) = 2 ^ n * 2 ^ e := by
    rw [zpow_add₀ two_ne_zero, zpow_natCast, mul_comm]
  have hlast : (2 : ℚ) ^ (e + n) ≤ 2 ^ (971 : ℤ) := zpow_le_zpow_right₀ one_le_two he
  have hpos : (0 : ℚ) < 2 ^ e := zpow_pos two_pos e
  have hbound : 2 * overflowBound + 2 ^ (971 : ℤ) = 2 * 2 ^ 1024 := by
    have hhalf : (2 : ℚ) ^ (971 : ℤ) = 2 * 2 ^ 970 := by rw [zpow_ofNat, pow_succ']
    rw [hhalf, overflowBound, mul_sub, sub_add_cancel]
  refine lt_of_mul_lt_mul_left ?_ zero_le_two
  calc 2 * ((r : ℚ) * 2 ^ (e + n)) = 2 * r * 2 ^ n * 2 ^ e := by rw [hsplit]; ring
    _ ≤ (2 * m + 2 ^ n) * 2 ^ e := by gcongr
    _ = 2 * (m * 2 ^ e) + 2 ^ (e + n) := by rw [hsplit]; ring
    _ < 2 * overflowBound + 2 ^ (971 : ℤ) :=
      add_lt_add_of_lt_of_le (mul_lt_mul_of_pos_left h two_pos) hlast
    _ = 2 * 2 ^ 1024 := hbound

/-- Rounding below the bound does not overflow. -/
lemma isPackable_roundWithAccuracy (sign : Sign) {m : ℕ} {e : ℤ} (he : e ≤ 971)
    (h : (m : ℚ) * 2 ^ e < overflowBound) :
    IsPackable (roundWithAccuracy Format.binary64 sign m e .exact) := by
  have hfirst := targetExponent_le he (h.trans overflowBound_lt)
  unfold roundWithAccuracy shiftToTargetExponent shiftToExponent
  dsimp only
  generalize hk : (Format.binary64.targetExponent (totalExponent m e) - e).toNat = k
  have hshifted : e + k ≤ 971 := by omega
  -- rounding may carry into one more bit, which is shifted out again
  have hsecond := targetExponent_le hshifted (roundedMantissa_mul_zpow_lt hshifted h)
  rw [shifted] at hsecond
  split
  · trivial
  · change e + k + _ ≤ (971 : ℤ)
    omega

lemma sign?_round (sign : Sign) (m : ℕ) (e : ℤ) :
    sign? (UnpackedFloat.round Format.binary64 sign m e) = some sign :=
  sign?_roundWithAccuracy sign _ _ _

lemma isPackable_round (sign : Sign) {m : ℕ} {e : ℤ} (he : e ≤ 971)
    (h : (m : ℚ) * 2 ^ e < overflowBound) :
    IsPackable (UnpackedFloat.round Format.binary64 sign m e) := by
  unfold UnpackedFloat.round decreaseExponent
  dsimp only
  refine isPackable_roundWithAccuracy sign (by omega) ?_
  rwa [shiftLeft_mul_zpow]

/-! ## Exact sums -/

/-- Bringing a number to a smaller exponent keeps it and its sign. -/
lemma apply_shiftLeft_mul_zpow (sign : Sign) (m : ℕ) {e t : ℤ} (h : t ≤ e) :
    ((sign.apply ((m <<< (e - t).toNat : ℕ) : ℤ) : ℤ) : ℚ) * 2 ^ t =
      (sign.apply m : ℤ) * 2 ^ e := by
  have hshift := shiftLeft_mul_zpow m (e := e) (t := t)
  rw [show e - ((e - t).toNat : ℤ) = t by omega] at hshift
  cases sign with
  | negative => simp only [Sign.apply, Int.cast_neg, Int.cast_natCast, neg_mul, hshift]
  | positive => simp only [Sign.apply, Int.cast_natCast, hshift]

lemma isPackable_normalize {m e : ℤ} {zeroSign : Sign} (he : e ≤ 971)
    (h : |(m : ℚ) * 2 ^ e| < overflowBound) :
    IsPackable (UnpackedFloat.normalize Format.binary64 m e zeroSign) := by
  have hmantissa : ((m.natAbs : ℕ) : ℚ) * 2 ^ e < overflowBound := by
    rwa [abs_mul, abs_of_pos (zpow_pos (two_pos (α := ℚ)) e), ← Int.cast_abs, Int.abs_eq_natAbs,
      Int.cast_natCast] at h
  unfold UnpackedFloat.normalize
  split
  · rename_i hlt
    rw [show (-m).toNat = m.natAbs by have := Int.compare_eq_lt.mp hlt; omega]
    exact isPackable_round _ he hmantissa
  · trivial
  · rename_i hgt
    rw [show m.toNat = m.natAbs by have := Int.compare_eq_gt.mp hgt; omega]
    exact isPackable_round _ he hmantissa

lemma sign?_normalize {m e : ℤ} (h : 0 ≤ m) :
    sign? (UnpackedFloat.normalize Format.binary64 m e .positive) = some .positive := by
  unfold UnpackedFloat.normalize
  split
  · rename_i hlt
    exact absurd (Int.compare_eq_lt.mp hlt) (Int.not_lt.mpr h)
  · rfl
  · exact sign?_round _ _ _

/-- The sum of two numbers is exact if one of them is zero, and else it is the exact sum in units of the
smaller last bit, rounded. -/
lemma add_cases {u v : UnpackedFloat} (hu : IsPackable u) (hv : IsPackable v) :
    IsPackable (UnpackedFloat.add Format.binary64 u v) ∧
        (ofUnpacked (UnpackedFloat.add Format.binary64 u v)).toRat =
          (ofUnpacked u).toRat + (ofUnpacked v).toRat ∨
      ∃ m e : ℤ, e ≤ 971 ∧ (m : ℚ) * 2 ^ e = (ofUnpacked u).toRat + (ofUnpacked v).toRat ∧
        UnpackedFloat.add Format.binary64 u v =
          UnpackedFloat.normalize Format.binary64 m e .positive := by
  cases u with
  | notANumber => exact hu.elim
  | infinity s => exact hu.elim
  | zero s =>
    rw [toRat_ofUnpacked_zero, zero_add]
    cases v with
    | notANumber => exact hv.elim
    | infinity t => exact hv.elim
    | zero t =>
      refine .inl ?_
      cases s <;> cases t <;>
        exact ⟨trivial, (toRat_ofUnpacked_zero _).trans (toRat_ofUnpacked_zero _).symm⟩
    | finite t n f hn => exact .inl ⟨hv, rfl⟩
  | finite s m e hm =>
    cases v with
    | notANumber => exact hv.elim
    | infinity t => exact hv.elim
    | zero t =>
      rw [toRat_ofUnpacked_zero, add_zero]
      exact .inl ⟨hu, rfl⟩
    | finite t n f hn =>
      refine .inr ⟨_, min e f, (min_le_left e f).trans hu, ?_, rfl⟩
      rw [toRat_ofUnpacked_finite, toRat_ofUnpacked_finite,
        ← apply_shiftLeft_mul_zpow s m (min_le_left e f),
        ← apply_shiftLeft_mul_zpow t n (min_le_right e f), ← add_mul, ← Int.cast_add]

lemma isPackable_add {u v : UnpackedFloat} (hu : IsPackable u) (hv : IsPackable v)
    (h : |(ofUnpacked u).toRat + (ofUnpacked v).toRat| < overflowBound) :
    IsPackable (UnpackedFloat.add Format.binary64 u v) := by
  rcases add_cases hu hv with ⟨hpackable, -⟩ | ⟨m, e, he, hsum, hadd⟩
  · exact hpackable
  · rw [hadd]
    exact isPackable_normalize he (hsum ▸ h)

lemma isNonneg_of_toRat_nonneg {u : UnpackedFloat} (hu : IsPackable u)
    (h : 0 ≤ (ofUnpacked u).toRat) : IsNonneg u := by
  cases u with
  | notANumber => exact hu.elim
  | infinity s => exact hu.elim
  | zero s =>
    cases s with
    | negative => exact .inl rfl
    | positive => exact .inr rfl
  | finite s m e hm =>
    cases s with
    | negative =>
      have hneg : (ofUnpacked (.finite .negative m e hm)).toRat < 0 := by
        have hpos : (0 : ℚ) < m * 2 ^ e := mul_pos (Nat.cast_pos.mpr hm) (zpow_pos two_pos e)
        simpa [ofUnpacked, toRat] using hpos
      exact absurd h (not_le.mpr hneg)
    | positive => exact .inr rfl

lemma isNonneg_add {u v : UnpackedFloat} (hu : IsPackable u) (hv : IsPackable v)
    (h : 0 ≤ (ofUnpacked u).toRat + (ofUnpacked v).toRat) :
    IsNonneg (UnpackedFloat.add Format.binary64 u v) := by
  rcases add_cases hu hv with ⟨hpackable, hsum⟩ | ⟨m, e, -, hsum, hadd⟩
  · exact isNonneg_of_toRat_nonneg hpackable (hsum ▸ h)
  · rw [← hsum] at h
    have hmantissa : 0 ≤ m := by
      exact_mod_cast nonneg_of_mul_nonneg_left h (zpow_pos (two_pos (α := ℚ)) e)
    rw [hadd]
    exact .inr (sign?_normalize hmantissa)

/-! ## Negatives, and what is no number -/

lemma apply_neg (sign : Sign) (n : ℤ) : (-sign).apply n = -sign.apply n := by
  cases sign with
  | negative => exact (neg_neg n).symm
  | positive => rfl

/-- A difference is a sum. -/
lemma sub_eq_add (u v : UnpackedFloat) :
    UnpackedFloat.sub Format.binary64 u v = UnpackedFloat.add Format.binary64 u v.neg := by
  rcases u with s | _ | s | ⟨s, m, e, hm⟩ <;> rcases v with t | _ | t | ⟨t, n, f, hn⟩
  all_goals try rfl
  simp only [UnpackedFloat.sub, UnpackedFloat.add, UnpackedFloat.neg, apply_neg, Int.sub_eq_add_neg]

lemma isPackable_neg {u : UnpackedFloat} : IsPackable u.neg ↔ IsPackable u := by
  cases u <;> exact Iff.rfl

lemma toRat_neg (u : UnpackedFloat) : (ofUnpacked u.neg).toRat = -(ofUnpacked u).toRat := by
  cases u with
  | notANumber => exact neg_zero.symm
  | infinity s => exact neg_zero.symm
  | zero s =>
    change (ofUnpacked (.zero (-s))).toRat = _
    rw [toRat_ofUnpacked_zero, toRat_ofUnpacked_zero, neg_zero]
  | finite s m e hm =>
    change (ofUnpacked (.finite (-s) m e hm)).toRat = _
    rw [toRat_ofUnpacked_finite, toRat_ofUnpacked_finite, apply_neg, Int.cast_neg, neg_mul]

lemma isFinite_neg_unpacked (u : UnpackedFloat) : u.neg.isFinite = u.isFinite := by
  cases u <;> rfl

lemma add_isFinite_eq_false {u v : UnpackedFloat} (h : u.isFinite = false ∨ v.isFinite = false) :
    (UnpackedFloat.add Format.binary64 u v).isFinite = false := by
  rcases u with s | _ | s | ⟨s, m, e, hm⟩ <;> rcases v with t | _ | t | ⟨t, n, f, hn⟩
  all_goals try rfl
  · cases s <;> cases t <;> rfl
  all_goals simp [UnpackedFloat.isFinite] at h

/-! ## Sums and differences of floats -/

/-- Which sums are packed as numbers. -/
lemma isFinite_unpack_pack_add {u v : UnpackedFloat} (hu : u.isFinite = true → IsPackable u)
    (hv : v.isFinite = true → IsPackable v)
    (h : |(ofUnpacked u).toRat + (ofUnpacked v).toRat| < overflowBound) :
    (UnpackedFloat.unpack Format.binary64 (UnpackedFloat.pack Format.binary64
      (UnpackedFloat.add Format.binary64 u v))).isFinite = (u.isFinite && v.isFinite) := by
  cases hfirst : u.isFinite with
  | false => exact not_isFinite_unpack_pack (add_isFinite_eq_false (.inl hfirst))
  | true =>
    cases hsecond : v.isFinite with
    | false => exact not_isFinite_unpack_pack (add_isFinite_eq_false (.inr hsecond))
    | true => exact isFinite_unpack_pack (isPackable_add (hu hfirst) (hv hsecond) h)

variable {x y : Float}

/-- Unless the exact sum is too large, a sum is a number if both of its parts are. -/
theorem isFinite_add (h : |(ofFloat x).toRat + (ofFloat y).toRat| < overflowBound) :
    (x + y).isFinite = (x.isFinite && y.isFinite) := by
  rw [ofFloat_eq, ofFloat_eq] at h
  exact isFinite_unpack_pack_add isFinite_iff.mp isFinite_iff.mp h

/-- Unless the exact difference is too large, a difference is a number if both of its parts are. -/
theorem isFinite_sub (h : |(ofFloat x).toRat - (ofFloat y).toRat| < overflowBound) :
    (x - y).isFinite = (x.isFinite && y.isFinite) := by
  rw [ofFloat_eq, ofFloat_eq, sub_eq_add_neg, ← toRat_neg] at h
  have hsum := isFinite_unpack_pack_add (u := x.toModel.unpack) isFinite_iff.mp
    (fun hy => isPackable_neg.mpr (isFinite_iff.mp ((isFinite_neg_unpacked _).symm.trans hy))) h
  rwa [← sub_eq_add, isFinite_neg_unpacked] at hsum

/-- The negative of a number is a number, and nothing else is one. -/
theorem isFinite_neg (x : Float) : (-x).isFinite = x.isFinite := by
  cases hx : x.isFinite with
  | false => exact not_isFinite_unpack_pack ((isFinite_neg_unpacked x.toModel.unpack).trans hx)
  | true => exact isFinite_unpack_pack (isPackable_neg.mpr (isFinite_iff.mp hx))

/-- A sum of numbers is not negative if the exact sum is not. -/
theorem zero_le_add (hx : x.isFinite = true) (hy : y.isFinite = true)
    (h : 0 ≤ (ofFloat x).toRat + (ofFloat y).toRat) : 0 ≤ x + y := by
  rw [isFinite_iff] at hx hy
  rw [ofFloat_eq, ofFloat_eq] at h
  exact zero_le_iff.mpr (isNonneg_unpack_pack (isNonneg_add hx hy h))

end Logo.Binary64
