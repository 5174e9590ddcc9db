import Logo.Proofs.Number.Nearest
import Logo.Proofs.Number.Patterns
import Mathlib

/-!
# Remainders of doubles

The double nearest to a quotient lies on the same side of any other double as the quotient does: on the
grid of the last bit, which is no finer than the other double needs, the other double is a whole number.
A remainder is below its divisor, and a whole number below `2 ^ 53` is a double.  So the remainder that
is computed on division by such a number is a number not beyond it.

* `exists_lastBit_eq`: the last bit that a quotient is rounded to.
* `nearestBits_le` and `abs_toRat_nearest_le`: nothing is rounded past a double.
* `abs_toRat_remainder_le`: the size of a remainder.
-/

namespace Logo.Binary64

/-! ## The last bit of a quotient -/

/-- A power of two with an integer exponent as a quotient. -/
lemma powRatio_two (e : ℤ) : ((powRatio 2 e).1 : ℚ) = 2 ^ e * (powRatio 2 e).2 := by
  simp only [powRatio, Nat.pow_eq, Nat.cast_pow, Nat.cast_ofNat]
  rw [← zpow_natCast, ← zpow_natCast, ← zpow_add₀ two_ne_zero]
  congr 1
  omega

lemma powRatio_two_pos (e : ℤ) : (0 : ℚ) < (powRatio 2 e).2 := by
  exact_mod_cast Nat.two_pow_pos _

/-- A mantissa and an exponent as a double has them that is not too small for a full mantissa. -/
structure IsNormal (m : ℕ) (e : ℤ) : Prop where
  /-- The mantissa has 53 bits. -/
  le_mantissa : 2 ^ 52 ≤ m
  /-- The mantissa has no more bits. -/
  mantissa_lt : m < 2 ^ 53
  /-- The exponent is not below that of the smallest double. -/
  le_exponent : minExponent ≤ e
  /-- The exponent is not above that of the largest double. -/
  exponent_le : e ≤ 971

variable {num den m : ℕ} {e : ℤ}

/-- The last bit lies 52 places below the first one, unless the quotient is too small for that. -/
lemma exists_lastBit_eq (hnum : 0 < num) (hden : 0 < den) :
    ∃ leading : ℤ, (2 : ℚ) ^ leading * den ≤ num ∧ (num : ℚ) < 2 ^ (leading + 1) * den ∧
      lastBit num den = max (leading - 52) minExponent := by
  obtain ⟨width, hwidth⟩ : ∃ width : ℤ, (num.log2 : ℤ) - den.log2 = width := ⟨_, rfl⟩
  have hlow : (2 : ℚ) ^ (width - 1) * den ≤ num := by
    have hdenHigh : (den : ℚ) ≤ 2 ^ (den.log2 + 1) := by exact_mod_cast Nat.lt_log2_self.le
    calc (2 : ℚ) ^ (width - 1) * den ≤ 2 ^ (width - 1) * 2 ^ (den.log2 + 1) := by gcongr
      _ = 2 ^ num.log2 := by
        rw [← zpow_natCast, ← zpow_natCast, ← zpow_add₀ two_ne_zero, ← hwidth]
        congr 1
        push_cast
        ring
      _ ≤ num := by exact_mod_cast Nat.log2_self_le hnum.ne'
  have hhigh : (num : ℚ) < 2 ^ (width + 1) * den := by
    have hdenLow : ((2 : ℚ) ^ den.log2) ≤ den := by exact_mod_cast Nat.log2_self_le hden.ne'
    calc (num : ℚ) < 2 ^ (num.log2 + 1) := by exact_mod_cast Nat.lt_log2_self
      _ = 2 ^ (width + 1) * 2 ^ den.log2 := by
        rw [← zpow_natCast, ← zpow_natCast, ← zpow_add₀ two_ne_zero, ← hwidth]
        congr 1
        push_cast
        ring
      _ ≤ 2 ^ (width + 1) * den := by gcongr
  have htest : num * (powRatio 2 width).2 < den * (powRatio 2 width).1 ↔
      (num : ℚ) < 2 ^ width * den := by
    rw [← Nat.cast_lt (α := ℚ), Nat.cast_mul, Nat.cast_mul, powRatio_two, ← mul_assoc,
      mul_lt_mul_iff_left₀ (powRatio_two_pos width), mul_comm (den : ℚ)]
  unfold lastBit
  dsimp only
  rw [hwidth]
  split
  · rename_i hlt
    exact ⟨width - 1, hlow, by rw [sub_add_cancel]; exact htest.mp hlt, rfl⟩
  · rename_i hge
    exact ⟨width, not_lt.mp (mt htest.mpr hge), hhigh, rfl⟩

/-! ## Rounding -/

/-- A quotient is not rounded past a whole number. -/
lemma roundDiv_le {k : ℕ} (hden : 0 < den) (h : num ≤ k * den) : roundDiv num den ≤ k := by
  have hround := roundDiv_mul_le num den
  have hlt : 2 * (roundDiv num den * den) < 2 * ((k + 1) * den) := by
    rw [Nat.add_mul]
    omega
  exact Nat.lt_succ_iff.mp (Nat.lt_of_mul_lt_mul_right (Nat.lt_of_mul_lt_mul_left hlt))

/-- A quotient is not rounded past a number on the grid of its last bit. -/
lemma roundDiv_lastBit_le {k : ℕ} (hden : 0 < den)
    (h : (num : ℚ) ≤ k * 2 ^ lastBit num den * den) :
    roundDiv (num * (powRatio 2 (lastBit num den)).2) (den * (powRatio 2 (lastBit num den)).1) ≤
      k := by
  refine roundDiv_le (Nat.mul_pos hden (Nat.two_pow_pos _)) ?_
  rw [← Nat.cast_le (α := ℚ)]
  push_cast
  rw [powRatio_two]
  calc (num : ℚ) * (powRatio 2 (lastBit num den)).2 ≤
        k * 2 ^ lastBit num den * den * (powRatio 2 (lastBit num den)).2 := by gcongr
    _ = k * (den * (2 ^ lastBit num den * (powRatio 2 (lastBit num den)).2)) := by ring

/-- The pattern of a quotient is at most that of any double that the quotient does not exceed. -/
theorem nearestBits_le (hden : 0 < den) (hnormal : IsNormal m e)
    (h : (num : ℚ) ≤ m * 2 ^ e * den) :
    nearestBits num den ≤ m + (e - minExponent).toNat * 2 ^ 52 := by
  obtain ⟨hm, hm', he, -⟩ := hnormal
  unfold nearestBits
  split
  · exact Nat.zero_le _
  rename_i hnum
  obtain ⟨leading, hlow, hhigh, hlast⟩ := exists_lastBit_eq (Nat.pos_of_ne_zero hnum) hden
  have hden' : (0 : ℚ) < den := Nat.cast_pos.mpr hden
  have hleading : leading < 53 + e := by
    have hlt : (2 : ℚ) ^ leading * den < 2 ^ (53 + e) * den := by
      calc (2 : ℚ) ^ leading * den ≤ m * 2 ^ e * den := hlow.trans h
        _ < 2 ^ 53 * 2 ^ e * den := by
          have hlt : (m : ℚ) < 2 ^ 53 := by exact_mod_cast hm'
          gcongr
        _ = 2 ^ (53 + e) * den := by rw [zpow_add₀ two_ne_zero]; rfl
    exact (zpow_lt_zpow_iff_right₀ one_lt_two).mp (lt_of_mul_lt_mul_right hlt hden'.le)
  refine (Nat.min_le_left _ _).trans ?_
  change roundDiv (num * (powRatio 2 (lastBit num den)).2) (den * (powRatio 2 (lastBit num den)).1) +
    (lastBit num den - minExponent).toNat * 2 ^ 52 ≤ _
  rcases eq_or_ne (lastBit num den) e with heq | hne
  · have hmantissa := roundDiv_lastBit_le (k := m) hden (by rwa [heq])
    rw [heq] at hmantissa ⊢
    exact Nat.add_le_add_right hmantissa _
  · -- below the exponent of the other double even a mantissa of 54 bits is small enough
    have hbelow : lastBit num den < e := by omega
    have hmantissa := roundDiv_lastBit_le (k := 2 ^ 53) hden <| by
      calc (num : ℚ) ≤ 2 ^ (leading + 1) * den := hhigh.le
        _ ≤ 2 ^ (53 + lastBit num den) * den := by
          have hpow : (2 : ℚ) ^ (leading + 1) ≤ 2 ^ (53 + lastBit num den) :=
            zpow_le_zpow_right₀ one_le_two (by omega)
          gcongr
        _ = ((2 ^ 53 : ℕ) : ℚ) * 2 ^ lastBit num den * den := by
          rw [zpow_add₀ two_ne_zero]
          norm_num
    have hplaces : (lastBit num den - minExponent).toNat + 1 ≤ (e - minExponent).toNat := by omega
    omega

/-! ## From patterns back to numbers -/

lemma nearestBits_lt (num den : ℕ) : nearestBits num den < 2 ^ 63 := by
  unfold nearestBits
  split
  · decide
  · exact (Nat.min_le_right _ _).trans_lt (by decide)

/-- The double nearest to a quotient stands for what its pattern does. -/
lemma ofFloat_nearest (negative : Bool) (num den : ℕ) :
    ofFloat (nearest negative num den) =
      ofBits ((if negative then 2 ^ 63 else 0) + nearestBits num den) := by
  have hlt := nearestBits_lt num den
  unfold nearest
  dsimp only
  rw [ofFloat_ofBits, UInt64.toNat_ofNat', Nat.mod_eq_of_lt]
  · rfl
  · cases negative
    · simp
      omega
    · simp
      omega

/-- A sign on top of a pattern leaves its other parts alone, if there is an exponent left for it. -/
lemma ofBits_signed (negative : Bool) {bits : ℕ} (h : bits / 2 ^ 52 < 2047) :
    ofBits ((if negative then 2 ^ 63 else 0) + bits) =
      if bits / 2 ^ 52 = 0 then .finite negative (bits % 2 ^ 52) minExponent
      else .finite negative (bits % 2 ^ 52 + 2 ^ 52) ((bits / 2 ^ 52 : ℕ) - 1075) := by
  have hsign : (((if negative then 2 ^ 63 else 0) + bits) / 2 ^ 63 % 2 == 1) = negative := by
    cases negative <;> simp <;> omega
  have hfraction : ((if negative then 2 ^ 63 else 0) + bits) % 2 ^ 52 = bits % 2 ^ 52 := by
    cases negative
    · simp
    · simp
      omega
  have hexponent : ((if negative then 2 ^ 63 else 0) + bits) / 2 ^ 52 % 2 ^ 11 = bits / 2 ^ 52 := by
    cases negative <;> simp <;> omega
  by_cases hzero : bits / 2 ^ 52 = 0
  · rw [if_pos hzero]
    exact ofBits_eq_finite_iff.mpr ⟨hsign, .inl ⟨hexponent.trans hzero, hfraction.symm, rfl⟩⟩
  · rw [if_neg hzero]
    refine ofBits_eq_finite_iff.mpr ⟨hsign, .inr ?_⟩
    rw [hexponent, hfraction]
    exact ⟨Nat.pos_of_ne_zero hzero, h, rfl, rfl⟩

/-- A pattern below that of a double stands for a number that is not larger, whatever its sign. -/
lemma exists_ofBits_eq (negative : Bool) {bits : ℕ} (hnormal : IsNormal m e)
    (h : bits ≤ m + (e - minExponent).toNat * 2 ^ 52) :
    ∃ n f, ofBits ((if negative then 2 ^ 63 else 0) + bits) = .finite negative n f ∧
      (n : ℚ) * 2 ^ f ≤ m * 2 ^ e := by
  obtain ⟨hm, hm', he, he'⟩ := hnormal
  have hplaces : ((e - minExponent).toNat : ℤ) = e + 1074 := by
    rw [Int.toNat_of_nonneg (Int.sub_nonneg.mpr he), minExponent]
    omega
  generalize (e - minExponent).toNat = places at h hplaces
  have hbiased : bits / 2 ^ 52 ≤ places + 1 := by omega
  have hpos : (0 : ℚ) < 2 ^ e := zpow_pos two_pos e
  rw [ofBits_signed negative (by omega)]
  split
  · refine ⟨_, _, rfl, ?_⟩
    have hmantissa : bits % 2 ^ 52 ≤ m := by omega
    have hscale : (2 : ℚ) ^ minExponent ≤ 2 ^ e := zpow_le_zpow_right₀ one_le_two he
    gcongr
  · refine ⟨_, _, rfl, ?_⟩
    rcases eq_or_ne (bits / 2 ^ 52) (places + 1) with heq | hne
    · have hmantissa : bits % 2 ^ 52 + 2 ^ 52 ≤ m := by omega
      have hexponent : ((bits / 2 ^ 52 : ℕ) : ℤ) - 1075 = e := by omega
      rw [hexponent]
      gcongr
    · have hmantissa : bits % 2 ^ 52 + 2 ^ 52 ≤ 2 ^ 53 := by omega
      have hscale : (2 : ℚ) ^ (((bits / 2 ^ 52 : ℕ) : ℤ) - 1075) ≤ 2 ^ (e - 1) :=
        zpow_le_zpow_right₀ one_le_two (by omega)
      calc ((bits % 2 ^ 52 + 2 ^ 52 : ℕ) : ℚ) * 2 ^ (((bits / 2 ^ 52 : ℕ) : ℤ) - 1075)
          ≤ (2 ^ 53 : ℕ) * 2 ^ (e - 1) := by gcongr
        _ = (2 ^ 52 : ℕ) * 2 ^ e := by
          rw [zpow_sub_one₀ two_ne_zero]
          norm_num
          ring
        _ ≤ m * 2 ^ e := by gcongr

/-- A quotient is not rounded past a double. -/
theorem abs_toRat_nearest_le (negative : Bool) (hden : 0 < den) (hnormal : IsNormal m e)
    (h : (num : ℚ) ≤ m * 2 ^ e * den) :
    (nearest negative num den).isFinite = true ∧
      |(ofFloat (nearest negative num den)).toRat| ≤ m * 2 ^ e := by
  have hbits := nearestBits_le hden hnormal h
  obtain ⟨n, f, hvalue, hle⟩ := exists_ofBits_eq negative hnormal hbits
  rw [← ofFloat_nearest] at hvalue
  refine ⟨isFinite_iff_exists.mpr ⟨_, _, _, hvalue⟩, ?_⟩
  rwa [hvalue, abs_toRat_finite]

/-! ## Remainders -/

/-- A small whole number is a double. -/
lemma exists_isNormal {n : ℕ} (hpos : 0 < n) (hlt : n < 2 ^ 53) :
    ∃ m e, IsNormal m e ∧ (m : ℚ) * 2 ^ e = n := by
  have hlog : n.log2 ≤ 52 := Nat.lt_succ_iff.mp ((Nat.log2_lt hpos.ne').mpr hlt)
  have hlow := Nat.log2_self_le hpos.ne'
  have hhigh := Nat.lt_log2_self (n := n)
  obtain ⟨places, hplaces⟩ := Nat.exists_eq_add_of_le hlog
  refine ⟨n * 2 ^ places, -places, ⟨?_, ?_, by unfold minExponent; omega, by omega⟩, ?_⟩
  · calc 2 ^ 52 = 2 ^ n.log2 * 2 ^ places := by rw [← pow_add, ← hplaces]
      _ ≤ n * 2 ^ places := Nat.mul_le_mul_right _ hlow
  · calc n * 2 ^ places < 2 ^ (n.log2 + 1) * 2 ^ places :=
          Nat.mul_lt_mul_of_pos_right hhigh (Nat.two_pow_pos _)
      _ = 2 ^ 53 := by rw [← pow_add, Nat.add_right_comm, ← hplaces]
  · rw [Nat.cast_mul, Nat.cast_pow, Nat.cast_ofNat, zpow_neg, zpow_natCast, mul_assoc,
      mul_inv_cancel₀ (pow_ne_zero _ two_ne_zero), mul_one]

/-- A number has a remainder, which is not beyond the divisor. -/
theorem abs_toRat_remainder_le (negative : Bool) (mantissa : ℕ) (exponent : ℤ) {divisor : ℕ}
    (hpos : 0 < divisor) (hlt : divisor < 2 ^ 53) :
    ((finite negative mantissa exponent).remainder divisor).isFinite = true ∧
      |(ofFloat ((finite negative mantissa exponent).remainder divisor)).toRat| ≤ divisor := by
  obtain ⟨m, e, hnormal, hdivisor⟩ := exists_isNormal hpos hlt
  have hdown : 0 < (powRatio 2 exponent).2 := Nat.two_pow_pos _
  have hmod : mantissa * (powRatio 2 exponent).1 % (divisor * (powRatio 2 exponent).2) ≤
      divisor * (powRatio 2 exponent).2 := (Nat.mod_lt _ (Nat.mul_pos hpos hdown)).le
  rw [← hdivisor]
  refine abs_toRat_nearest_le negative hdown hnormal ?_
  rw [hdivisor]
  exact_mod_cast hmod

end Logo.Binary64
