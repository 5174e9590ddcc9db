import Logo.Number.Binary64
import Mathlib

/-!
# What the arithmetic of doubles works on

A double is read off its pattern twice: as an exact value, by which it is printed and reduced, and by
the arithmetic of floats, which takes it apart, computes, rounds and packs what comes out.  Both
readings agree, so that what is known of values can be used on sums and comparisons.

* `ofFloat_eq`: the two readings of a double.
* `ofFloat_ofBits`: the double of a pattern stands for what the pattern does.
* `ofBits_eq_finite_iff`: the mantissa and the exponent in the pattern of a number.
* `isFinite_unpack_pack` and `sign?_unpack_pack`: packing makes an infinity of what is too large, and
  else changes neither that it is a number nor its sign.
* `lt_or_le`: any two doubles can be compared unless one of them is no number.
-/

namespace Logo.Binary64

open Float.Model (Format UnpackedFloat)
open Float.Model.UnpackedFloat

/-! ## Two readings of a pattern -/

/-- The value behind what the arithmetic of floats works on. -/
def ofUnpacked : UnpackedFloat → Binary64
  | .notANumber => .nan
  | .infinity sign => .infinite (sign == .negative)
  | .zero sign => .finite (sign == .negative) 0 minExponent
  | .finite sign mantissa exponent _ => .finite (sign == .negative) mantissa exponent

lemma toNat_unpackMantissa (b : BitVec 64) :
    (@unpackMantissa Format.binary64 b).toNat = b.toNat % 2 ^ 52 := by
  simp [unpackMantissa]

lemma toNat_unpackExponent (b : BitVec 64) :
    (@unpackExponent Format.binary64 b).toNat = b.toNat / 2 ^ 52 % 2 ^ 11 := by
  simp [unpackExponent, Nat.shiftRight_eq_div_pow]

lemma toNat_unpackSign (b : BitVec 64) :
    (@unpackSign Format.binary64 b).toNat = b.toNat / 2 ^ 63 % 2 := by
  simp [unpackSign, Nat.shiftRight_eq_div_pow]

lemma ofBitVec_beq_negative (b : BitVec 1) : (Sign.ofBitVec b == .negative) = (b.toNat == 1) := by
  decide +revert

/-- Both readings of a pattern agree. -/
lemma ofBits_toNat (b : BitVec 64) :
    ofBits b.toNat = ofUnpacked (UnpackedFloat.unpack Format.binary64 b) := by
  have hsign : (b.toNat / 2 ^ 63 % 2 == 1) =
      (Sign.ofBitVec (@unpackSign Format.binary64 b) == .negative) := by
    rw [ofBitVec_beq_negative, toNat_unpackSign]
  have hones : @unpackExponent Format.binary64 b = -1#_ ↔
      (@unpackExponent Format.binary64 b).toNat = 2047 := BitVec.toNat_inj.symm
  have hzeros : @unpackExponent Format.binary64 b = 0#_ ↔
      (@unpackExponent Format.binary64 b).toNat = 0 := BitVec.toNat_inj.symm
  have hnone : @unpackMantissa Format.binary64 b = 0#_ ↔
      (@unpackMantissa Format.binary64 b).toNat = 0 := BitVec.toNat_inj.symm
  unfold ofBits
  simp only [Nat.pow_eq, ← toNat_unpackMantissa, ← toNat_unpackExponent, hsign, ← hones, ← hzeros,
    ← hnone]
  fun_cases UnpackedFloat.unpack Format.binary64 b with
  | case1 mantissa exponent bits sign hexponent hmantissa =>
    rw [if_pos hexponent, if_pos hmantissa]
    rfl
  | case2 mantissa exponent hexponent hmantissa =>
    rw [if_pos hexponent, if_neg hmantissa]
    rfl
  | case3 mantissa exponent bits sign hexponent hzero hmantissa =>
    rw [if_neg hexponent, if_pos hzero, hnone.mp hmantissa]
    rfl
  | case4 mantissa exponent value bits sign hexponent hzero hmantissa =>
    rw [if_neg hexponent, if_pos hzero]
    have hvalue : value + 1 = minExponent := by
      have hbits : exponent.toNat = 0 := hzeros.mp hzero
      simp only [value, hbits]
      rfl
    rw [ofUnpacked, hvalue]
  | case5 mantissa exponent value bits sign hexponent hzero =>
    rw [if_neg hexponent, if_neg hzero]
    have hvalue : value = exponent.toNat - 1075 := rfl
    have hmantissa : (1#1 ++ mantissa).toNat = mantissa.toNat + 2 ^ 52 := by
      rw [BitVec.toNat_append, ← Nat.shiftLeft_add_eq_or_of_lt mantissa.isLt, Nat.shiftLeft_eq]
      exact Nat.add_comm _ _
    rw [ofUnpacked, hvalue, hmantissa]

/-- The exact value of a double is the one that arithmetic sees. -/
theorem ofFloat_eq (x : Float) : ofFloat x = ofUnpacked x.toModel.unpack := ofBits_toNat _

/-- Of a pattern nothing is lost but the payload of what is no number, which no value shows. -/
theorem ofFloat_ofBits (bits : UInt64) : ofFloat (Float.ofBits bits) = ofBits bits.toNat := by
  have hunpack : (Float.ofBits bits).toModel.unpack =
      UnpackedFloat.unpack Format.binary64 bits.toBitVec := by
    change UnpackedFloat.unpack _ (UnpackedFloat.pack _ (UnpackedFloat.unpack _ _)) = _
    rw [pack_unpack]
    split
    · rename_i hnan
      rw [unpack_packedNaN]
      simp only [isNaNBits, decide_eq_true_eq] at hnan
      simp [UnpackedFloat.unpack, hnan]
    · rfl
  rw [ofFloat_eq, hunpack]
  exact (ofBits_toNat _).symm

/-! ## Values as numbers -/

/-- The number that a value is; zero if it is none. -/
def toRat : Binary64 → ℚ
  | .finite negative mantissa exponent =>
    (if negative then -(mantissa : ℚ) else mantissa) * 2 ^ exponent
  | .nan | .infinite _ => 0

lemma abs_toRat_finite (negative : Bool) (m : ℕ) (e : ℤ) :
    |(Binary64.finite negative m e).toRat| = m * 2 ^ e := by
  have hpos : (0 : ℚ) < 2 ^ e := zpow_pos two_pos e
  cases negative <;> simp [toRat, abs_mul, abs_of_pos hpos]

lemma toRat_ofUnpacked_finite (sign : Sign) (m : ℕ) (e : ℤ) (hm : 0 < m) :
    (ofUnpacked (.finite sign m e hm)).toRat = (sign.apply m : ℤ) * 2 ^ e := by
  cases sign <;> simp [ofUnpacked, toRat, Sign.apply]

lemma toRat_ofUnpacked_zero (sign : Sign) : (ofUnpacked (.zero sign)).toRat = 0 := by
  simp [ofUnpacked, toRat]

/-- What the pattern of a number is read as: without exponent bits its fraction is the mantissa, and
with them the mantissa has a leading bit that is not stored. -/
lemma ofBits_eq_finite_iff {bits : ℕ} {negative : Bool} {m : ℕ} {e : ℤ} :
    ofBits bits = .finite negative m e ↔ (bits / 2 ^ 63 % 2 == 1) = negative ∧
      ((bits / 2 ^ 52 % 2 ^ 11 = 0 ∧ m = bits % 2 ^ 52 ∧ e = minExponent) ∨
        (0 < bits / 2 ^ 52 % 2 ^ 11 ∧ bits / 2 ^ 52 % 2 ^ 11 < 2047 ∧
          m = bits % 2 ^ 52 + 2 ^ 52 ∧ e = (bits / 2 ^ 52 % 2 ^ 11 : ℕ) - 1075)) := by
  have hbiased : bits / 2 ^ 52 % 2 ^ 11 < 2 ^ 11 := Nat.mod_lt _ (by decide)
  unfold ofBits
  simp only [Nat.pow_eq]
  generalize bits / 2 ^ 52 % 2 ^ 11 = biased at hbiased ⊢
  split_ifs with hones hnone hzero
  · exact iff_of_false (by simp) (by omega)
  · exact iff_of_false (by simp) (by omega)
  · rw [finite.injEq]
    refine and_congr_right fun _ => ?_
    omega
  · rw [finite.injEq]
    refine and_congr_right fun _ => ?_
    omega

/-- The mantissa of a double has 53 bits, and its exponent is bounded. -/
lemma mantissa_lt_and_exponent_le {bits : ℕ} {negative : Bool} {m : ℕ} {e : ℤ}
    (h : ofBits bits = .finite negative m e) : m < 2 ^ 53 ∧ e ≤ 971 := by
  have hfraction : bits % 2 ^ 52 < 2 ^ 52 := Nat.mod_lt _ (by decide)
  rcases (ofBits_eq_finite_iff.mp h).2 with ⟨-, rfl, rfl⟩ | ⟨-, hbiased, rfl, rfl⟩
  · exact ⟨by omega, by decide⟩
  · exact ⟨by omega, by omega⟩

/-- The largest double. -/
lemma abs_toRat_le (x : Float) : |(ofFloat x).toRat| ≤ 2 ^ 1024 - 2 ^ 971 := by
  have hnonneg : (0 : ℚ) ≤ 2 ^ 1024 - 2 ^ 971 :=
    sub_nonneg.mpr (pow_le_pow_right₀ one_le_two (by decide))
  cases hx : ofFloat x with
  | nan => exact abs_zero.trans_le hnonneg
  | infinite negative => exact abs_zero.trans_le hnonneg
  | finite negative m e =>
    obtain ⟨hm, he⟩ := mantissa_lt_and_exponent_le hx
    have hmantissa : (m : ℚ) ≤ 2 ^ 53 - 1 := by
      rw [le_sub_iff_add_le]
      exact_mod_cast hm
    have hexponent : (2 : ℚ) ^ e ≤ 2 ^ (971 : ℤ) := zpow_le_zpow_right₀ one_le_two he
    rw [abs_toRat_finite]
    calc (m : ℚ) * 2 ^ e ≤ (2 ^ 53 - 1) * 2 ^ (971 : ℤ) :=
          mul_le_mul hmantissa hexponent (zpow_pos two_pos e).le (by norm_num)
      _ = 2 ^ 1024 - 2 ^ 971 := by rw [sub_mul, one_mul, zpow_ofNat, ← pow_add]

/-! ## Packing -/

/-- Whether a number is small enough to be packed; what is not becomes an infinity. -/
def IsPackable : UnpackedFloat → Prop
  | .zero _ => True
  | .finite _ _ exponent _ => exponent ≤ 971
  | .notANumber | .infinity _ => False

/-- The sign of a number or an infinity. -/
def sign? : UnpackedFloat → Option Sign
  | .notANumber => none
  | .infinity sign | .zero sign | .finite sign _ _ _ => some sign

lemma isFinite_unpack (b : BitVec 64) :
    (UnpackedFloat.unpack Format.binary64 b).isFinite = true ↔
      @unpackExponent Format.binary64 b ≠ -1#_ := by
  unfold UnpackedFloat.unpack
  dsimp only
  split_ifs with hones <;>
    simp only [UnpackedFloat.isFinite, hones, ne_eq, not_true_eq_false, not_false_eq_true,
      Bool.false_eq_true]

/-- The sign of what is unpacked is that of the pattern. -/
lemma sign?_unpack (b : BitVec 64) :
    sign? (UnpackedFloat.unpack Format.binary64 b) =
      if @isNaNBits Format.binary64 b then none
      else some (Sign.ofBitVec (@unpackSign Format.binary64 b)) := by
  unfold UnpackedFloat.unpack
  dsimp only
  split_ifs with hones hzero hnan <;> simp_all [isNaNBits, sign?]

/-- A number that was unpacked can be packed again. -/
lemma isPackable_unpack (b : BitVec 64)
    (h : (UnpackedFloat.unpack Format.binary64 b).isFinite = true) :
    IsPackable (UnpackedFloat.unpack Format.binary64 b) := by
  have hones := (isFinite_unpack b).mp h
  have hexponent : (@unpackExponent Format.binary64 b).toNat ≤ 2046 := by
    have hlt := (@unpackExponent Format.binary64 b).isLt
    have hne : (@unpackExponent Format.binary64 b).toNat ≠ 2047 :=
      fun hall => hones (BitVec.eq_of_toNat_eq hall)
    change _ < 2048 at hlt
    omega
  have hbias : ((Format.binary64.exponentBias : ℕ) : ℤ) = 1023 := rfl
  unfold UnpackedFloat.unpack
  dsimp only
  rw [if_neg hones]
  split_ifs with hzero hnone
  · trivial
  · have hfield : (@unpackExponent Format.binary64 b).toNat = 0 := congrArg BitVec.toNat hzero
    change (_ : ℤ) ≤ 971
    omega
  · change (_ : ℤ) ≤ 971
    omega

/-- A number is packed as an infinity if it is too large, and else with an exponent of its own. -/
lemma pack_finite (s : Sign) (m : ℕ) (e : ℤ) (hm : 0 < m) :
    971 < e ∧ UnpackedFloat.pack Format.binary64 (.finite s m e hm) =
        packedInfinity Format.binary64 s ∨
      ∃ field mantissa, field ≠ -1#_ ∧ UnpackedFloat.pack Format.binary64 (.finite s m e hm) =
        packComponents Format.binary64 s field mantissa := by
  have hbias : ((Format.binary64.exponentBias : ℕ) : ℤ) = 1023 := rfl
  unfold UnpackedFloat.pack
  dsimp only
  split_ifs with hlarge hnormal
  · left
    refine ⟨?_, rfl⟩
    omega
  · right
    refine ⟨_, _, fun hones => ?_, rfl⟩
    have hfield := congrArg BitVec.toNat hones
    rw [BitVec.toNat_ofNat] at hfield
    change _ = 2047 at hfield
    omega
  · right
    exact ⟨_, _, by decide, rfl⟩

/-- Packing keeps the sign. -/
lemma sign?_unpack_pack (u : UnpackedFloat) :
    sign? (UnpackedFloat.unpack Format.binary64 (UnpackedFloat.pack Format.binary64 u)) =
      sign? u := by
  cases u with
  | notANumber =>
    change sign? (UnpackedFloat.unpack _ (packedNaN _)) = _
    rw [unpack_packedNaN]
  | infinity s => cases s <;> rfl
  | zero s =>
    change sign? (UnpackedFloat.unpack _ (packedZero _ _)) = _
    rw [unpack_packedZero]
  | finite s m e hm =>
    rcases pack_finite s m e hm with ⟨-, hpack⟩ | ⟨field, mantissa, hfield, hpack⟩
    · rw [hpack]
      cases s <;> rfl
    · rw [hpack, sign?_unpack]
      simp only [isNaNBits, unpackExponent_packComponents, hfield, false_and, decide_false,
        Bool.false_eq_true, if_false, unpackSign_packComponents, Sign.ofBitVec_toBitVec, sign?]

/-- What is small enough stays a number when it is packed. -/
lemma isFinite_unpack_pack {u : UnpackedFloat} (h : IsPackable u) :
    (UnpackedFloat.unpack Format.binary64 (UnpackedFloat.pack Format.binary64 u)).isFinite =
      true := by
  cases u with
  | notANumber => exact h.elim
  | infinity s => exact h.elim
  | zero s => cases s <;> rfl
  | finite s m e hm =>
    rcases pack_finite s m e hm with ⟨hlarge, -⟩ | ⟨field, mantissa, hfield, hpack⟩
    · exact absurd h (not_le.mpr hlarge)
    · rwa [hpack, isFinite_unpack, unpackExponent_packComponents]

/-- What is no number is not packed as one. -/
lemma not_isFinite_unpack_pack {u : UnpackedFloat} (h : u.isFinite = false) :
    (UnpackedFloat.unpack Format.binary64 (UnpackedFloat.pack Format.binary64 u)).isFinite =
      false := by
  cases u with
  | notANumber => rfl
  | infinity s => cases s <;> rfl
  | zero s => exact nomatch h
  | finite s m e hm => exact nomatch h

/-! ## Numbers among the floats -/

variable {x y : Float}

lemma isFinite_iff : x.isFinite = true ↔ IsPackable x.toModel.unpack := by
  refine ⟨isPackable_unpack x.toBits.toBitVec, fun h => ?_⟩
  change x.toModel.unpack.isFinite = true
  cases hunpack : x.toModel.unpack with
  | notANumber => exact (hunpack ▸ h).elim
  | infinity s => exact (hunpack ▸ h).elim
  | zero s => rfl
  | finite s m e hm => rfl

/-- A float is finite if its value is a number. -/
lemma isFinite_iff_exists :
    x.isFinite = true ↔ ∃ negative m e, ofFloat x = .finite negative m e := by
  change x.toModel.unpack.isFinite = true ↔ _
  rw [ofFloat_eq]
  cases x.toModel.unpack <;> simp [UnpackedFloat.isFinite, ofUnpacked]

/-- What else a value can be. -/
lemma ofFloat_of_not_isFinite (h : x.isFinite = false) :
    ofFloat x = .nan ∨ ∃ negative, ofFloat x = .infinite negative := by
  cases hvalue : ofFloat x with
  | nan => exact .inl rfl
  | infinite negative => exact .inr ⟨negative, rfl⟩
  | finite negative m e =>
    rw [isFinite_iff_exists.mpr ⟨_, _, _, hvalue⟩] at h
    exact absurd h.symm Bool.false_ne_true

lemma isNaN_of_isFinite (h : x.isFinite = true) : x.isNaN = false := by
  change x.toModel.unpack.isFinite = true at h
  change x.toModel.unpack.isNaN = false
  cases hunpack : x.toModel.unpack with
  | notANumber => exact nomatch hunpack ▸ h
  | infinity s => rfl
  | zero s => rfl
  | finite s m e hm => rfl

lemma isFinite_of_isNaN (h : x.isNaN = true) : x.isFinite = false := by
  cases hx : x.isFinite with
  | false => rfl
  | true => exact nomatch (isNaN_of_isFinite hx).symm.trans h

/-! ## Comparisons -/

lemma le_iff : x ≤ y ↔ x.toModel.unpack.le y.toModel.unpack = true := by
  change decide (x.toModel.unpack.le y.toModel.unpack = true) = true ↔ _
  rw [decide_eq_true_iff]

lemma lt_iff : x < y ↔ x.toModel.unpack.lt y.toModel.unpack = true := by
  change decide (x.toModel.unpack.lt y.toModel.unpack = true) = true ↔ _
  rw [decide_eq_true_iff]

/-- Whether a number or an infinity is not below zero; a zero is not, whatever its sign. -/
def IsNonneg (u : UnpackedFloat) : Prop := u = .zero .negative ∨ sign? u = some .positive

lemma zero_le_iff : 0 ≤ x ↔ IsNonneg x.toModel.unpack := by
  have hzero : (0 : Float).toModel.unpack = .zero .positive := rfl
  rw [le_iff, hzero]
  cases x.toModel.unpack with
  | notANumber => simp [UnpackedFloat.le, UnpackedFloat.compare, IsNonneg, sign?]
  | infinity s => cases s <;> simp [UnpackedFloat.le, UnpackedFloat.compare, IsNonneg, sign?]
  | zero s => cases s <;> simp [UnpackedFloat.le, UnpackedFloat.compare, IsNonneg, sign?]
  | finite s m e hm => cases s <;> simp [UnpackedFloat.le, UnpackedFloat.compare, IsNonneg, sign?]

lemma isNonneg_unpack_pack {u : UnpackedFloat} (h : IsNonneg u) :
    IsNonneg (UnpackedFloat.unpack Format.binary64 (UnpackedFloat.pack Format.binary64 u)) := by
  rcases h with rfl | hsign
  · exact .inl rfl
  · exact .inr ((sign?_unpack_pack u).trans hsign)

lemma isNaN_of_zero_le (h : 0 ≤ x) : x.isNaN = false := by
  change x.toModel.unpack.isNaN = false
  rcases zero_le_iff.mp h with hzero | hpos
  · rw [hzero]
    rfl
  · cases hunpack : x.toModel.unpack with
    | notANumber => exact nomatch hunpack ▸ hpos
    | infinity s => rfl
    | zero s => rfl
    | finite s m e hm => rfl

lemma compare_ne_none {u v : UnpackedFloat} (hu : u.isNaN = false) (hv : v.isNaN = false) :
    u.compare v ≠ none := by
  fun_cases UnpackedFloat.compare u v <;> simp_all [UnpackedFloat.isNaN]

lemma compare_swap (u v : UnpackedFloat) : v.compare u = (u.compare v).map Ordering.swap := by
  rcases u with s | _ | s | ⟨s, m, e, hm⟩ <;> rcases v with t | _ | t | ⟨t, n, f, hn⟩
  all_goals try cases s
  all_goals try cases t
  all_goals try rfl
  -- two numbers of the same sign are left
  · simp [UnpackedFloat.compare, Ordering.swap_then, Int.compare_swap, Nat.compare_swap]
  · simp [UnpackedFloat.compare, Ordering.swap_then, Int.compare_swap, Nat.compare_swap]

/-- Any two floats can be compared unless one of them is no number. -/
theorem lt_or_le (hx : x.isNaN = false) (hy : y.isNaN = false) : x < y ∨ y ≤ x := by
  rw [lt_iff, UnpackedFloat.lt, le_iff, UnpackedFloat.le, compare_swap x.toModel.unpack]
  have hcompare := compare_ne_none hx hy
  generalize x.toModel.unpack.compare y.toModel.unpack = order at *
  rcases order with _ | _ | _ | _ <;> simp_all

end Logo.Binary64
