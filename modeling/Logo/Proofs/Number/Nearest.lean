import Logo.Number.Numeral
import Mathlib.Tactic.Common
import Mathlib.Algebra.Order.Group.Nat
import Mathlib.Data.List.Induction

/-!
# Numerals denote the double nearest to them

A numeral is not computed exactly if its power of ten is huge: above `10 ^ 400` it is infinite and
below `10 ^ (-400)` it is zero, whatever its digits are.  Neither makes a difference.

* `Binary64.nearestBits_of_small` and `Binary64.nearestBits_of_large`: a quotient far below the smallest
  double goes to zero, and one beyond the largest goes to infinity.
* `Numeral.toFloat_eq_nearest`: a numeral made of decimal digits is the double nearest to its digits
  times its power of ten.
* `Numeral.toFloat_eq_of_le`: so the size of an exponent that outweighs all digits does not matter.
-/

namespace Logo

/-! ## Quotients that are very small or very large -/

/-- A quotient is not rounded below the whole number under it. -/
lemma div_le_roundDiv (num den : Nat) : num / den ≤ roundDiv num den := by
  unfold roundDiv
  dsimp only
  split_ifs <;> omega

lemma roundDiv_eq_zero {num den : Nat} (h : 2 * num < den) : roundDiv num den = 0 := by
  have hlt : num < den := by omega
  unfold roundDiv
  rw [Nat.div_eq_of_lt hlt, Nat.mod_eq_of_lt hlt, if_pos h]

namespace Binary64

variable {num den k : Nat}

/-- Far below the smallest double the last bit is that of the smallest double. -/
lemma lastBit_of_small (hnum : 0 < num) (hk : 1024 ≤ k) (h : num * 2 ^ k ≤ den) :
    lastBit num den = minExponent := by
  have hden : den ≠ 0 := by
    have hpos : 0 < num * 2 ^ k := Nat.mul_pos hnum (Nat.two_pow_pos _)
    omega
  have hlog : Nat.log2 num + k ≤ Nat.log2 den := by
    refine (Nat.le_log2 hden).2 (le_trans ?_ h)
    rw [Nat.pow_add]
    exact Nat.mul_le_mul_right _ (Nat.log2_self_le (Nat.ne_of_gt hnum))
  unfold lastBit minExponent
  dsimp only
  split <;> omega

/-- A quotient far below the smallest double goes to zero. -/
theorem nearestBits_of_small (hk : 1076 ≤ k) (h : num * 2 ^ k ≤ den) : nearestBits num den = 0 := by
  unfold nearestBits
  split
  · rfl
  · rename_i hnum
    have hpos : 0 < num := Nat.pos_of_ne_zero hnum
    rw [lastBit_of_small hpos (by omega) h]
    have hratio : powRatio 2 minExponent = (1, 2 ^ (-minExponent).toNat) := by
      rw [powRatio, show minExponent.toNat = 0 from rfl, Nat.pow_eq, Nat.pow_eq, Nat.pow_zero]
    have hplaces : (-minExponent).toNat + 2 ≤ k := hk
    -- kept a variable, so that its power is never computed
    generalize (-minExponent).toNat = places at hratio hplaces
    obtain ⟨more, rfl⟩ := Nat.exists_eq_add_of_le hplaces
    have hmantissa : roundDiv (num * 2 ^ places) (den * 1) = 0 := by
      have hscaled : 0 < num * 2 ^ places := Nat.mul_pos hpos (Nat.two_pow_pos _)
      have hmore : 1 ≤ 2 ^ more := Nat.two_pow_pos _
      refine roundDiv_eq_zero ?_
      calc 2 * (num * 2 ^ places) < num * 2 ^ places * 4 * 1 := by omega
        _ ≤ num * 2 ^ places * 4 * 2 ^ more := Nat.mul_le_mul_left _ hmore
        _ = num * 2 ^ (places + 2 + more) := by
          rw [Nat.pow_add, Nat.pow_add, Nat.mul_assoc, Nat.mul_assoc, Nat.mul_assoc]
        _ ≤ den := h
        _ = den * 1 := (Nat.mul_one den).symm
    simp only [hratio, hmantissa]
    decide

/-- The last bit of a large whole number lies 52 places below its first one. -/
lemma lastBit_of_large (hk : 1024 ≤ k) (h : Nat.log2 num = k) (hnum : num ≠ 0) :
    lastBit num 1 = ((k - 52 : ℕ) : Int) := by
  have hself := Nat.log2_self_le hnum
  have hone : Nat.log2 1 = 0 := by decide
  have hleading : ¬ num < 2 ^ k := by rw [← h]; exact Nat.not_lt.2 hself
  unfold lastBit powRatio minExponent
  simp [hone, h, hleading]
  omega

/-- A whole number beyond the largest double goes to infinity. -/
theorem nearestBits_of_large (hk : 1024 ≤ k) (h : 2 ^ k ≤ num) : nearestBits num 1 = infinityBits := by
  have hnum : num ≠ 0 := Nat.ne_of_gt (Nat.lt_of_lt_of_le (Nat.two_pow_pos _) h)
  obtain ⟨width, hwidth⟩ : ∃ width, Nat.log2 num = width := ⟨_, rfl⟩
  have hle : k ≤ width := hwidth ▸ (Nat.le_log2 hnum).2 h
  have hself : 2 ^ width ≤ num := hwidth ▸ Nat.log2_self_le hnum
  obtain ⟨places, rfl⟩ := Nat.exists_eq_add_of_le (show 52 ≤ width by omega)
  have hlast : lastBit num 1 = (places : Int) := by
    rw [lastBit_of_large (by omega) hwidth hnum]
    omega
  have hmantissa : 2 ^ 52 ≤ roundDiv (num * 1) (1 * 2 ^ places) := by
    refine le_trans ?_ (div_le_roundDiv _ _)
    rw [Nat.mul_one, Nat.one_mul, Nat.le_div_iff_mul_le (Nat.two_pow_pos _), ← Nat.pow_add]
    exact hself
  have hratio : powRatio 2 (places : Int) = (2 ^ places, 1) := by simp [powRatio]
  unfold nearestBits
  rw [if_neg hnum, hlast]
  simp only [hratio, infinityBits, minExponent]
  refine Nat.min_eq_right ?_
  have hexponent : ((places : Int) - -1074).toNat = places + 1074 := by omega
  rw [hexponent]
  have hpower : Nat.pow 2 52 = 4503599627370496 := rfl
  rw [hpower]
  have hpower' : (2 : ℕ) ^ 52 = 4503599627370496 := rfl
  rw [hpower'] at hmantissa
  omega

end Binary64

/-! ## Numerals -/

/-- Quotients with the same pattern are near to the same double. -/
lemma Binary64.nearest_congr (negative : Bool) {num den num' den' : Nat}
    (h : nearestBits num den = nearestBits num' den') :
    nearest negative num den = nearest negative num' den' := by
  unfold nearest
  rw [h]

namespace Numeral

/-- A digit more is a power of ten more. -/
lemma foldl_pushDigit_lt {digits : List Char} (h : ∀ c ∈ digits, c.isDigit = true) :
    digits.foldl pushDigit 0 < 10 ^ digits.length := by
  induction digits using List.reverseRecOn with
  | nil => decide
  | append_singleton digits c ih =>
    have hdigit : c.toNat - '0'.toNat ≤ 9 := by
      have hc : c.isDigit = true := h c (by simp)
      simp only [Char.isDigit, Bool.and_eq_true, decide_eq_true_eq, UInt32.le_iff_toNat_le,
        ge_iff_le] at hc
      have hnine : '9'.val.toNat = 57 := rfl
      have hzero : '0'.toNat = 48 := rfl
      have htoNat : c.toNat = c.val.toNat := rfl
      omega
    have hrest := ih fun d hd => h d (by simp [hd])
    rw [List.foldl_append, List.foldl_cons, List.foldl_nil, List.length_append, List.length_singleton,
      Nat.pow_succ, pushDigit]
    omega

/-- The digits of a numeral, read as one whole number. -/
lemma digits_eq_foldl (n : Numeral) : n.digits = (n.whole ++ n.fraction).foldl pushDigit 0 :=
  halvesValue_eq_foldl _ _

/-- Three bits are less than a decimal digit. -/
lemma two_pow_le_ten_pow (k : Nat) : 2 ^ (3 * k) ≤ 10 ^ k := by
  rw [Nat.pow_mul]
  exact Nat.pow_le_pow_left (by decide) k

/-- A number whose first digit stands far behind the point goes to zero. -/
lemma nearestBits_of_scale_lt {digits width : Nat} {scale : Int} (hlt : digits < 10 ^ width)
    (hscale : scale + width < -400) :
    Binary64.nearestBits (digits * (powRatio 10 scale).1) (powRatio 10 scale).2 = 0 := by
  obtain ⟨k, hk⟩ : ∃ k : Nat, k = 400 := ⟨_, rfl⟩
  have hplaces : width + k ≤ (-scale).toNat := by omega
  have hzero : scale.toNat = 0 := by omega
  rw [powRatio, hzero, Nat.pow_eq, Nat.pow_eq, Nat.pow_zero, Nat.mul_one]
  refine Binary64.nearestBits_of_small (show 1076 ≤ 3 * k by omega) ?_
  calc digits * 2 ^ (3 * k) ≤ 10 ^ width * 10 ^ k :=
        Nat.mul_le_mul (Nat.le_of_lt hlt) (two_pow_le_ten_pow k)
    _ = 10 ^ (width + k) := (Nat.pow_add _ _ _).symm
    _ ≤ 10 ^ (-scale).toNat := Nat.pow_le_pow_right (by decide) hplaces

/-- A number with many zeros in front of the point goes to infinity. -/
lemma nearestBits_of_lt_scale {digits : Nat} {scale : Int} (hdigits : digits ≠ 0)
    (hscale : 400 < scale) :
    Binary64.nearestBits (digits * (powRatio 10 scale).1) (powRatio 10 scale).2 =
      Binary64.infinityBits := by
  have hzero : (-scale).toNat = 0 := by omega
  rw [powRatio, hzero, Nat.pow_eq, Nat.pow_eq, Nat.pow_zero]
  refine Binary64.nearestBits_of_large (show 1024 ≤ 3 * scale.toNat by omega) ?_
  exact le_trans (two_pow_le_ten_pow _) (Nat.le_mul_of_pos_left _ (Nat.pos_of_ne_zero hdigits))

/-- A numeral made of decimal digits is the double nearest to its digits times its power of ten. -/
theorem toFloat_eq_nearest (negative : Bool) {n : Numeral}
    (h : ∀ c ∈ n.whole ++ n.fraction, c.isDigit = true) :
    n.toFloat negative =
      Binary64.nearest negative (n.digits * (powRatio 10 n.scale).1) (powRatio 10 n.scale).2 := by
  have hlt : n.digits < 10 ^ (n.whole.length + n.fraction.length) := by
    rw [digits_eq_foldl, ← List.length_append]
    exact foldl_pushDigit_lt h
  unfold toFloat
  dsimp only
  split
  · rename_i hsmall
    have hzero : Binary64.nearestBits 0 1 = 0 := rfl
    refine Binary64.nearest_congr negative (hzero.trans (Eq.symm ?_))
    by_cases hdigits : n.digits = 0
    · rw [hdigits, Nat.zero_mul]
      rfl
    · exact nearestBits_of_scale_lt hlt (hsmall.resolve_left hdigits)
  · rename_i hnot
    split
    · rename_i hlarge
      refine Binary64.nearest_congr negative ?_
      rw [nearestBits_of_lt_scale (fun hzero => hnot (.inl hzero)) hlarge]
      generalize hk : 1024 = k
      exact Binary64.nearestBits_of_large (Nat.le_of_eq hk) le_rfl
    · rfl

/-! ## Exponents -/

/-- The reader counts the digits of an exponent until it has reached the bound. -/
lemma exponentSize_eq_or (digits : List Char) :
    exponentSize digits = digits.foldl pushDigit 0 ∨
      exponentBound ≤ exponentSize digits ∧ exponentBound ≤ digits.foldl pushDigit 0 := by
  induction digits using List.reverseRecOn with
  | nil => exact .inl rfl
  | append_singleton digits c ih =>
    have hsize : exponentSize (digits ++ [c]) =
        if exponentSize digits < exponentBound then pushDigit (exponentSize digits) c
        else exponentSize digits := by
      rw [exponentSize, List.foldl_append]
      rfl
    have hpush : digits.foldl pushDigit 0 ≤ pushDigit (digits.foldl pushDigit 0) c := by
      unfold pushDigit
      omega
    rw [hsize, List.foldl_append, List.foldl_cons, List.foldl_nil]
    -- once both have passed the bound, the one stays where it is and the other grows
    rcases ih with heq | ⟨hbound, hvalue⟩
    · rw [heq]
      split_ifs
      · exact .inl rfl
      · exact .inr (by omega)
    · rw [if_neg (Nat.not_lt.2 hbound)]
      exact .inr ⟨hbound, hvalue.trans hpush⟩

/-- A numeral with an exponent beyond its digits is infinite or zero. -/
lemma toFloat_eq_of_le (negative : Bool) {whole fraction : List Char} {x y : Int}
    {k : ℕ} (hk : whole.length + fraction.length + 400 < k)
    (h : (k : Int) ≤ x ∧ (k : Int) ≤ y ∨ x ≤ -k ∧ y ≤ -k) :
    (mk whole fraction x).toFloat negative = (mk whole fraction y).toFloat negative := by
  have hdigits : (mk whole fraction x).digits = (mk whole fraction y).digits := rfl
  unfold toFloat scale
  dsimp only
  rw [hdigits]
  rcases h with ⟨hx, hy⟩ | ⟨hx, hy⟩
  · by_cases hzero : (mk whole fraction y).digits = 0
    · rw [if_pos (.inl hzero), if_pos (.inl hzero)]
    · rw [if_neg (by omega), if_pos (by omega), if_neg (by omega), if_pos (by omega)]
  · rw [if_pos (by omega), if_pos (by omega)]

end Numeral

end Logo
