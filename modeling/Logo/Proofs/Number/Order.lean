import Logo.Proofs.Number.Patterns
import Mathlib

/-!
# The order of doubles

Doubles are compared by their signs, then by their exponents and only then by their mantissas.  That is
the order of their values because a mantissa is as long as its exponent allows: with a larger exponent
every double is larger than all those with a smaller one.

* `compare_eq`: numbers compare as their values do.
* `lt_iff_toRat`, `le_iff_toRat` and `beq_iff_toRat`: so do finite floats.
* `isFinite_of_le`: what lies between zero and a finite bound is finite.
-/

namespace Logo.Binary64

open Float.Model (Format UnpackedFloat)
open Float.Model.UnpackedFloat

/-! ## Mantissas as long as their exponents allow -/

/-- A mantissa and an exponent as a double has them. -/
structure IsCanonical (m : ℕ) (e : ℤ) : Prop where
  /-- The mantissa has at most 53 bits. -/
  mantissa_lt : m < 2 ^ 53
  /-- The exponent is not below that of the smallest double. -/
  le_exponent : minExponent ≤ e
  /-- The mantissa has fewer bits only with the smallest exponent. -/
  le_mantissa : e ≠ minExponent → 2 ^ 52 ≤ m

/-- The mantissa of a pattern is as long as its exponent allows. -/
lemma isCanonical_of_ofBits {bits : ℕ} {negative : Bool} {m : ℕ} {e : ℤ}
    (h : ofBits bits = .finite negative m e) : IsCanonical m e := by
  have hfraction : bits % 2 ^ 52 < 2 ^ 52 := Nat.mod_lt _ (by decide)
  rcases (ofBits_eq_finite_iff.mp h).2 with ⟨-, rfl, rfl⟩ | ⟨hbiased, -, rfl, rfl⟩
  · exact ⟨by omega, le_rfl, fun hne => absurd rfl hne⟩
  · exact ⟨by omega, by unfold minExponent; omega, fun _ => Nat.le_add_left _ _⟩

variable {m n : ℕ} {e f : ℤ}

/-- The larger exponent decides. -/
lemma mul_zpow_lt (hm : m < 2 ^ 53) (hn : 2 ^ 52 ≤ n) (h : e < f) :
    (m : ℚ) * 2 ^ e < n * 2 ^ f := by
  have hm' : (m : ℚ) < 2 ^ 53 := by exact_mod_cast hm
  have hn' : (2 ^ 52 : ℚ) ≤ n := by exact_mod_cast hn
  have hscale : (2 : ℚ) ^ (e + 1) ≤ 2 ^ f := zpow_le_zpow_right₀ one_le_two h
  calc (m : ℚ) * 2 ^ e < 2 ^ 53 * 2 ^ e := by gcongr
    _ = 2 ^ 52 * 2 ^ (e + 1) := by
      rw [zpow_add_one₀ two_ne_zero]
      ring
    _ ≤ n * 2 ^ f := by gcongr

/-- Comparing exponents and then mantissas is comparing values. -/
lemma compare_then (hm : IsCanonical m e) (hn : IsCanonical n f) :
    (compare e f).then (compare m n) = compare ((m : ℚ) * 2 ^ e) (n * 2 ^ f) := by
  rcases lt_trichotomy e f with hlt | rfl | hgt
  · have hne : f ≠ minExponent := (hm.le_exponent.trans_lt hlt).ne'
    have hvalue := mul_zpow_lt hm.mantissa_lt (hn.le_mantissa hne) hlt
    rw [compare_lt_iff_lt.mpr hlt, compare_lt_iff_lt.mpr hvalue]
    rfl
  · rw [compare_eq_iff_eq.mpr rfl]
    change compare m n = _
    have hstrict : StrictMono fun k : ℕ => (k : ℚ) * 2 ^ e :=
      Nat.strictMono_cast.mul_const (zpow_pos two_pos e)
    rw [← cmp_eq_compare, ← cmp_eq_compare]
    exact (hstrict.cmp_map_eq m n).symm
  · have hne : e ≠ minExponent := (hn.le_exponent.trans_lt hgt).ne'
    have hvalue := mul_zpow_lt hn.mantissa_lt (hm.le_mantissa hne) hgt
    rw [compare_gt_iff_gt.mpr hgt, compare_gt_iff_gt.mpr hvalue]
    rfl

/-! ## Numbers -/

lemma compare_neg_neg (a b : ℚ) : compare (-a) (-b) = (compare a b).swap := by
  have hanti : StrictAnti fun q : ℚ => -q := fun _ _ hlt => neg_lt_neg hlt
  rw [← cmp_eq_compare, ← cmp_eq_compare, cmp_swap]
  exact hanti.cmp_map_eq a b

/-- A number as a double is one. -/
def IsNumber : UnpackedFloat → Prop
  | .zero _ => True
  | .finite _ m e _ => IsCanonical m e
  | .notANumber | .infinity _ => False

lemma isNumber_unpack {x : Float} (h : x.isFinite = true) : IsNumber x.toModel.unpack := by
  obtain ⟨negative, m, e, hvalue⟩ := isFinite_iff_exists.mp h
  have hcanonical : IsCanonical m e := isCanonical_of_ofBits hvalue
  rw [ofFloat_eq] at hvalue
  cases hunpack : x.toModel.unpack with
  | notANumber => exact nomatch hunpack ▸ hvalue
  | infinity s => exact nomatch hunpack ▸ hvalue
  | zero s => trivial
  | finite s m' e' hpos =>
    rw [hunpack] at hvalue
    obtain ⟨-, rfl, rfl⟩ := Binary64.finite.inj hvalue
    exact hcanonical

/-- The value of a positive number. -/
lemma toRat_ofUnpacked_positive (m : ℕ) (e : ℤ) (hm : 0 < m) :
    (ofUnpacked (.finite .positive m e hm)).toRat = m * 2 ^ e := rfl

/-- The value of a negative number. -/
lemma toRat_ofUnpacked_negative (m : ℕ) (e : ℤ) (hm : 0 < m) :
    (ofUnpacked (.finite .negative m e hm)).toRat = -(m * 2 ^ e) := neg_mul _ _

/-- Numbers compare as their values do. -/
theorem compare_eq {u v : UnpackedFloat} (hu : IsNumber u) (hv : IsNumber v) :
    u.compare v = some (compare (ofUnpacked u).toRat (ofUnpacked v).toRat) := by
  have hpos {m : ℕ} (e : ℤ) (hm : 0 < m) : (0 : ℚ) < m * 2 ^ e :=
    mul_pos (Nat.cast_pos.mpr hm) (zpow_pos two_pos e)
  have hneg {m : ℕ} (e : ℤ) (hm : 0 < m) : -((m : ℚ) * 2 ^ e) < 0 := neg_neg_of_pos (hpos e hm)
  match u, v with
  | .notANumber, _ | .infinity _, _ => exact hu.elim
  | .zero _, .notANumber | .zero _, .infinity _ => exact hv.elim
  | .finite .., .notANumber | .finite .., .infinity _ => exact hv.elim
  | .zero s, .zero t =>
    rw [toRat_ofUnpacked_zero, toRat_ofUnpacked_zero, compare_eq_iff_eq.mpr rfl]
    rfl
  | .zero s, .finite .positive n f hn =>
    rw [toRat_ofUnpacked_zero, toRat_ofUnpacked_positive, compare_lt_iff_lt.mpr (hpos f hn)]
    rfl
  | .zero s, .finite .negative n f hn =>
    rw [toRat_ofUnpacked_zero, toRat_ofUnpacked_negative, compare_gt_iff_gt.mpr (hneg f hn)]
    rfl
  | .finite .positive m e hm, .zero t =>
    rw [toRat_ofUnpacked_zero, toRat_ofUnpacked_positive, compare_gt_iff_gt.mpr (hpos e hm)]
    rfl
  | .finite .negative m e hm, .zero t =>
    rw [toRat_ofUnpacked_zero, toRat_ofUnpacked_negative, compare_lt_iff_lt.mpr (hneg e hm)]
    rfl
  | .finite .positive m e hm, .finite .positive n f hn =>
    rw [toRat_ofUnpacked_positive, toRat_ofUnpacked_positive, ← compare_then hu hv]
    rfl
  | .finite .negative m e hm, .finite .negative n f hn =>
    rw [toRat_ofUnpacked_negative, toRat_ofUnpacked_negative, compare_neg_neg, ← compare_then hu hv]
    rfl
  | .finite .positive m e hm, .finite .negative n f hn =>
    rw [toRat_ofUnpacked_positive, toRat_ofUnpacked_negative,
      compare_gt_iff_gt.mpr ((hneg f hn).trans (hpos e hm))]
    rfl
  | .finite .negative m e hm, .finite .positive n f hn =>
    rw [toRat_ofUnpacked_negative, toRat_ofUnpacked_positive,
      compare_lt_iff_lt.mpr ((hneg e hm).trans (hpos f hn))]
    rfl

/-! ## Finite floats -/

section Finite

variable {x y : Float} (hx : x.isFinite = true) (hy : y.isFinite = true)
include hx hy

/-- Finite floats compare as their values do. -/
lemma compare_unpack :
    x.toModel.unpack.compare y.toModel.unpack = some (compare (ofFloat x).toRat (ofFloat y).toRat) := by
  rw [ofFloat_eq, ofFloat_eq, compare_eq (isNumber_unpack hx) (isNumber_unpack hy)]

theorem lt_iff_toRat : x < y ↔ (ofFloat x).toRat < (ofFloat y).toRat := by
  rw [lt_iff, UnpackedFloat.lt, compare_unpack hx hy, beq_iff_eq, Option.some_inj, compare_lt_iff_lt]

theorem le_iff_toRat : x ≤ y ↔ (ofFloat x).toRat ≤ (ofFloat y).toRat := by
  rw [le_iff, UnpackedFloat.le, compare_unpack hx hy, Option.any_some, Ordering.isLE_iff_ne_gt]
  exact compare_le_iff_le

theorem beq_iff_toRat : (x == y) = true ↔ (ofFloat x).toRat = (ofFloat y).toRat := by
  have hbeq : (x == y) = (x.toModel.unpack.compare y.toModel.unpack == some .eq) := rfl
  rw [hbeq, compare_unpack hx hy, beq_iff_eq, Option.some_inj, compare_eq_iff_eq]

end Finite

/-- What lies between zero and a finite bound is finite. -/
theorem isFinite_of_le {x bound : Float} (hbound : bound.isFinite = true) (hzero : 0 ≤ x)
    (hle : x ≤ bound) : x.isFinite = true := by
  have hnumber := isNumber_unpack hbound
  rw [zero_le_iff] at hzero
  rw [le_iff] at hle
  rw [isFinite_iff_exists, ofFloat_eq]
  cases hx : x.toModel.unpack with
  | notANumber => simp [hx, UnpackedFloat.le, UnpackedFloat.compare] at hle
  | infinity s =>
    obtain rfl : s = .positive := by simpa [hx, IsNonneg, sign?] using hzero
    -- positive infinity is larger than any number
    rw [hx] at hle
    cases hy : bound.toModel.unpack with
    | notANumber => exact (hy ▸ hnumber).elim
    | infinity t => exact (hy ▸ hnumber).elim
    | zero t => simp [hy, UnpackedFloat.le, UnpackedFloat.compare] at hle
    | finite t n f hn => simp [hy, UnpackedFloat.le, UnpackedFloat.compare] at hle
  | zero s => exact ⟨_, _, _, rfl⟩
  | finite s m e hm => exact ⟨_, _, _, rfl⟩

end Logo.Binary64
