import Logo.Machine.Operand
import Logo.Proofs.Number.Whole
import Mathlib

/-!
# Whole operands

The bounds of a count are whole numbers, and a double is compared with the doubles nearest to them.  The
lower one is a double.  The upper one is not, and the double nearest to it is the number after it; so
that one is excluded, and what is left is as large as a count can be.

* `loopCount_cases`: what a double is as a count, and `loopCount_eq_ok_iff`: when it is one.
* `colorComponent_eq_ok_iff` and `colorComponent_eq_error_iff`: what it is as a component of a color.
-/

namespace Logo

open Binary64

variable {v : Float}

/-! ## Bounds -/

lemma toRat_ofInt_minCount : (ofFloat (ofInt minCount)).toRat = -2 ^ 63 := by
  have hvalue : ofFloat (ofInt minCount) = .finite true (2 ^ 52) 11 := by decide +kernel
  rw [hvalue, toRat]
  norm_num

/-- The largest count rounds up. -/
lemma toRat_ofInt_maxCount : (ofFloat (ofInt maxCount)).toRat = 2 ^ 63 := by
  have hvalue : ofFloat (ofInt maxCount) = .finite false (2 ^ 52) 11 := by decide +kernel
  rw [hvalue, toRat]
  norm_num

lemma toRat_ofInt_maxComponent : (ofFloat (ofInt maxComponent)).toRat = 255 := by
  have hvalue : ofFloat (ofInt maxComponent) = .finite false (255 * 2 ^ 45) (-45) := by decide +kernel
  rw [hvalue, toRat]
  norm_num

lemma lt_minCount_iff (hv : v.isFinite = true) : v < ofInt minCount ↔ (ofFloat v).toRat < -2 ^ 63 := by
  rw [lt_iff_toRat hv (by decide +kernel), toRat_ofInt_minCount]

lemma maxCount_le_iff (hv : v.isFinite = true) : ofInt maxCount ≤ v ↔ 2 ^ 63 ≤ (ofFloat v).toRat := by
  rw [le_iff_toRat (by decide +kernel) hv, toRat_ofInt_maxCount]

/-! ## Counts -/

/-- What a double is as a count: its value, if that is a whole number within the bounds, and else an
error that says which of this is not the case. -/
theorem loopCount_cases (v : Float) :
    v.isFinite = false ∧ loopCount v = .error (.countNotFinite v) ∨
      v.isFinite = true ∧ ((ofFloat v).toRat < -2 ^ 63 ∨ 2 ^ 63 ≤ (ofFloat v).toRat) ∧
        loopCount v = .error (.countOutOfRange v) ∨
      v.isFinite = true ∧ (¬ ∃ n : ℤ, (ofFloat v).toRat = n) ∧
        loopCount v = .error (.countNotWhole v) ∨
      ∃ n : ℤ, v.isFinite = true ∧ (ofFloat v).toRat = n ∧ -2 ^ 63 ≤ n ∧ n < 2 ^ 63 ∧
        loopCount v = .ok n := by
  unfold loopCount
  split_ifs with hfinite hrange hfraction
  · rw [lt_minCount_iff hfinite, maxCount_le_iff hfinite] at hrange
    exact .inr (.inl ⟨hfinite, hrange, rfl⟩)
  · rw [fraction_bne_zero_iff hfinite] at hfraction
    exact .inr (.inr (.inl ⟨hfinite, hfraction, rfl⟩))
  · rw [fraction_bne_zero_iff hfinite, not_not] at hfraction
    rw [lt_minCount_iff hfinite, maxCount_le_iff hfinite, not_or, not_lt, not_le] at hrange
    obtain ⟨n, hn⟩ := hfraction
    rw [hn] at hrange
    have hlow : -2 ^ 63 ≤ n := by exact_mod_cast hrange.1
    have hhigh : n < 2 ^ 63 := by exact_mod_cast hrange.2
    obtain ⟨negative, m, e, hvalue⟩ := isFinite_iff_exists.mp hfinite
    have hcast : (ofFloat v).toWhole minCount maxCount = n := by
      rw [hvalue] at hn ⊢
      exact toWhole_of_toRat_eq hn hlow (Int.le_sub_one_of_lt hhigh)
    exact .inr (.inr (.inr ⟨n, hfinite, hn, hlow, hhigh, congrArg Except.ok hcast⟩))
  · exact .inl ⟨Bool.eq_false_of_not_eq_true hfinite, rfl⟩

/-- A double is a count if it is a whole number within the bounds, and it is that number. -/
theorem loopCount_eq_ok_iff (n : ℤ) :
    loopCount v = .ok n ↔
      v.isFinite = true ∧ (ofFloat v).toRat = n ∧ -2 ^ 63 ≤ n ∧ n < 2 ^ 63 := by
  constructor
  · intro hok
    rcases loopCount_cases v with
      ⟨-, h⟩ | ⟨-, -, h⟩ | ⟨-, -, h⟩ | ⟨n', hfinite, hn, hlow, hhigh, h⟩
    · exact nomatch h.symm.trans hok
    · exact nomatch h.symm.trans hok
    · exact nomatch h.symm.trans hok
    · obtain rfl : n' = n := Except.ok.inj (h.symm.trans hok)
      exact ⟨hfinite, hn, hlow, hhigh⟩
  · rintro ⟨hfinite, hn, hlow, hhigh⟩
    have hrange : ¬ ((ofFloat v).toRat < -2 ^ 63 ∨ 2 ^ 63 ≤ (ofFloat v).toRat) := by
      rw [hn, not_or, not_lt, not_le]
      exact_mod_cast And.intro hlow hhigh
    rcases loopCount_cases v with ⟨h, -⟩ | ⟨-, h, -⟩ | ⟨-, h, -⟩ | ⟨n', -, hn', -, -, h⟩
    · exact nomatch h.symm.trans hfinite
    · exact absurd h hrange
    · exact absurd ⟨n, hn⟩ h
    · obtain rfl : n' = n := by exact_mod_cast hn'.symm.trans hn
      exact h

/-! ## Components of colors -/

/-- A double is in range as a component if its value is; zero may be negative. -/
lemma component_range_iff :
    (0 ≤ v ∧ v ≤ ofInt maxComponent) ↔
      v.isFinite = true ∧ 0 ≤ (ofFloat v).toRat ∧ (ofFloat v).toRat ≤ 255 := by
  have hbound : (ofInt maxComponent).isFinite = true := by decide +kernel
  constructor
  · rintro ⟨hzero, hle⟩
    have hfinite := isFinite_of_le hbound hzero hle
    rw [le_iff_toRat rfl hfinite, toRat_ofFloat_zero] at hzero
    rw [le_iff_toRat hfinite hbound, toRat_ofInt_maxComponent] at hle
    exact ⟨hfinite, hzero, hle⟩
  · rintro ⟨hfinite, hzero, hle⟩
    rw [le_iff_toRat rfl hfinite, le_iff_toRat hfinite hbound, toRat_ofFloat_zero,
      toRat_ofInt_maxComponent]
    exact ⟨hzero, hle⟩

/-- The component that a double in range is cast to. -/
lemma toNat_component (hfinite : v.isFinite = true) (hzero : 0 ≤ (ofFloat v).toRat)
    (hle : (ofFloat v).toRat ≤ 255) :
    ((UInt8.ofNat ((ofFloat v).toWhole 0 maxComponent).toNat).toNat : ℤ) = ⌊(ofFloat v).toRat⌋ := by
  obtain ⟨negative, m, e, hvalue⟩ := isFinite_iff_exists.mp hfinite
  have hcast : (ofFloat v).toWhole 0 maxComponent = ⌊(ofFloat v).toRat⌋ := by
    rw [hvalue] at hzero hle ⊢
    exact toWhole_of_zero_le hzero hle
  have hlow : 0 ≤ ⌊(ofFloat v).toRat⌋ := Int.floor_nonneg.mpr hzero
  have hhigh : ⌊(ofFloat v).toRat⌋ ≤ 255 := by exact_mod_cast (Int.floor_le _).trans hle
  rw [hcast, UInt8.toNat_ofNat']
  omega

/-- What a double is as a component of a color: its whole part, if it is in range, and else an error. -/
theorem colorComponent_cases (v : Float) :
    (v.isFinite = true ∧ 0 ≤ (ofFloat v).toRat ∧ (ofFloat v).toRat ≤ 255) ∧
        (∃ c : UInt8, (c.toNat : ℤ) = ⌊(ofFloat v).toRat⌋ ∧ colorComponent v = .ok c) ∨
      ¬ (v.isFinite = true ∧ 0 ≤ (ofFloat v).toRat ∧ (ofFloat v).toRat ≤ 255) ∧
        colorComponent v = .error (.colorRange v) := by
  unfold colorComponent
  split_ifs with hrange
  · rw [component_range_iff] at hrange
    obtain ⟨hfinite, hzero, hle⟩ := hrange
    exact .inl ⟨⟨hfinite, hzero, hle⟩, _, toNat_component hfinite hzero hle, rfl⟩
  · rw [component_range_iff] at hrange
    exact .inr ⟨hrange, rfl⟩

/-- A double is a component of a color if it is in range, and it is its whole part. -/
theorem colorComponent_eq_ok_iff (c : UInt8) :
    colorComponent v = .ok c ↔
      v.isFinite = true ∧ 0 ≤ (ofFloat v).toRat ∧ (ofFloat v).toRat ≤ 255 ∧
        (c.toNat : ℤ) = ⌊(ofFloat v).toRat⌋ := by
  constructor
  · intro hok
    rcases colorComponent_cases v with ⟨⟨hfinite, hzero, hle⟩, c', hc', h⟩ | ⟨-, h⟩
    · obtain rfl : c' = c := Except.ok.inj (h.symm.trans hok)
      exact ⟨hfinite, hzero, hle, hc'⟩
    · exact nomatch h.symm.trans hok
  · rintro ⟨hfinite, hzero, hle, hc⟩
    rcases colorComponent_cases v with ⟨-, c', hc', h⟩ | ⟨hrange, -⟩
    · obtain rfl : c' = c := UInt8.toNat_inj.mp (by exact_mod_cast hc'.trans hc.symm)
      exact h
    · exact absurd ⟨hfinite, hzero, hle⟩ hrange

/-- Every other double is an error. -/
theorem colorComponent_eq_error_iff :
    colorComponent v = .error (.colorRange v) ↔
      ¬ (v.isFinite = true ∧ 0 ≤ (ofFloat v).toRat ∧ (ofFloat v).toRat ≤ 255) := by
  rcases colorComponent_cases v with ⟨hrange, c, -, h⟩ | ⟨hrange, h⟩
  · exact iff_of_false (fun herror => nomatch h.symm.trans herror) (not_not.mpr hrange)
  · exact iff_of_true h hrange

end Logo
