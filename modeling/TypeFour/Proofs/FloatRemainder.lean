import TypeFour.Binary64.Remainder
import TypeFour.Proofs.FloatArithmetic

/-!
# `TypeFour.Proofs.FloatRemainder` — what a division of floats leaves over

The quotient of two floats without its fraction may have more digits than a float, but what it leaves over has not:
it is an integer number of units of the lower last digit of the two, less than the divisor and no more than the
dividend. So the remainder is exact, with the sign of the dividend. To bring a negative remainder up by the divisor
takes a sum, which is rounded.

## Contents
- `value_ofScaled` — mantissas of at most 53 digits.
- `value_remainder` — the remainder is exact.
- `fract_of_nonneg`, `fract_of_neg` — a number less its integer part, and a number less its floor.
- `value_positiveRemainder` — the remainder that is not negative is rounded once.
-/

namespace TypeFour.Binary64

open Float.Model (UnpackedFloat)
open Float.Model.UnpackedFloat

/-! ## The remainder of the division that truncates -/

/-- A mantissa that needs no rounding. -/
theorem value_ofScaled (s : Sign) {m : ℕ} {e : ℤ} (hm : m < 2 ^ 53) (hlow : -1074 ≤ e) (hhigh : e ≤ 971) :
    (ofScaled s m e).isFinite = true ∧ value (ofScaled s m e) = s.apply m * 2 ^ e := by
  have hdigits : |s.apply m| < 2 ^ 53 := by
    rw [Int.abs_eq_natAbs, natAbs_apply]
    exact_mod_cast hm
  have hself : rounded (s.apply m * 2 ^ e) = s.apply m * 2 ^ e := rounded_eq_self ⟨s.apply m, e, hdigits, hlow, rfl⟩
  have hsmall : |rounded (s.apply m * 2 ^ e)| < 2 ^ 1024 := by
    rw [hself, ← zpow_ofNat]
    exact abs_mul_two_zpow_lt hdigits (by omega)
  obtain ⟨hfinite, hvalue⟩ := value_normalize (s.apply m) e s hsmall
  exact ⟨hfinite, hvalue.trans hself⟩

/-- Magnitudes in the same units, less as many times the second as it is in the first. -/
theorem sub_mul_integerPart (s t : Sign) (m : ℕ) {n : ℕ} (hn : 0 < n) (u : ℚ) (hu : u ≠ 0) :
    (s.apply m * u - t.apply n * u * integerPart (s.apply m * u / (t.apply n * u)) : ℚ) = s.apply (m % n : ℕ) * u := by
  have hpos : (n : ℚ) ≠ 0 := by exact_mod_cast hn.ne'
  have hsign : ((t.apply 1 : ℤ) : ℚ) ≠ 0 := by cases t <;> simp [Sign.apply]
  have hquotient : (s.apply m * u / (t.apply n * u) : ℚ) = (s / t).apply 1 * (m / n) := by
    rw [apply_cast s m, apply_cast t n, apply_div, Int.cast_natCast, Int.cast_natCast]
    field_simp
  have hwhole : (m : ℚ) = n * (m / n : ℕ) + (m % n : ℕ) := by exact_mod_cast (Nat.div_add_mod m n).symm
  rw [hquotient, integerPart_apply, integerPart_natCast_div, apply_cast (s / t) (m / n : ℕ), apply_div, apply_cast s m,
    apply_cast t n, apply_cast s (m % n : ℕ), Int.cast_natCast, Int.cast_natCast, Int.cast_natCast, Int.cast_natCast,
    hwhole]
  field_simp
  ring

variable {x y : Float}

/-- **The remainder is exact**, with the sign of the dividend. -/
theorem value_remainder (hx : x.isFinite = true) (hy : y.isFinite = true) (hne : value y ≠ 0) :
    (remainder x y).isFinite = true ∧
      value (remainder x y) = value x - value y * integerPart (value x / value y) := by
  rcases isFinite_cases hy with ⟨t, hv⟩ | ⟨t, n, f, hn, hv⟩
  · exact absurd (by rw [value, hv]; rfl) hne
  rcases isFinite_cases hx with ⟨s, hu⟩ | ⟨s, m, e, hm, hu⟩
  · have hself : remainder x y = x := by
      unfold remainder
      rw [hu, hv]
    have hzero : value x = 0 := by rw [value, hu]; rfl
    have hpart : integerPart 0 = 0 := integerPart_intCast 0
    rw [hself, hzero, zero_div, hpart]
    exact ⟨hx, by norm_num⟩
  · have hform := canonical_unpack x
    have hform' := canonical_unpack y
    rw [hu] at hform
    rw [hv] at hform'
    obtain ⟨hlt, hlow, hhigh, -⟩ := hform
    obtain ⟨hlt', hlow', hhigh', -⟩ := hform'
    have hremainder : remainder x y =
        ofScaled s (m <<< (e - min e f).toNat % n <<< (f - min e f).toNat) (min e f) := by
      unfold remainder
      rw [hu, hv]
    have hpos : 0 < n <<< (f - min e f).toNat := by
      rw [Nat.shiftLeft_eq]
      exact Nat.mul_pos hn (Nat.two_pow_pos _)
    -- one of the two is not shifted: the dividend, which is not exceeded, or the divisor
    have hdigits : m <<< (e - min e f).toNat % n <<< (f - min e f).toNat < 2 ^ 53 := by
      rcases le_total e f with hle | hle
      · rw [Int.min_eq_left hle, Int.sub_self, Int.toNat_zero, Nat.shiftLeft_zero]
        exact Nat.lt_of_le_of_lt (Nat.mod_le _ _) hlt
      · rw [Int.min_eq_right hle, Int.sub_self f, Int.toNat_zero, Nat.shiftLeft_zero]
        exact Nat.lt_trans (Nat.mod_lt _ hn) hlt'
    obtain ⟨hfinite, hvalue⟩ := value_ofScaled (e := min e f) s hdigits (by omega) (by omega)
    refine ⟨by rwa [hremainder], ?_⟩
    rw [hremainder, hvalue, value_of_unpack hm hu, value_of_unpack hn hv,
      ← apply_shiftLeft s m (Int.min_le_left e f), ← apply_shiftLeft t n (Int.min_le_right e f),
      sub_mul_integerPart s t _ hpos _ (zpow_pos two_pos _).ne']

/-! ## The remainder that is not negative -/

theorem abs_sub_integerPart_lt (q : ℚ) : |q - integerPart q| < 1 := by
  have hfloor := Int.floor_le q
  have hfloor' := Int.lt_floor_add_one q
  have hceil := Int.le_ceil q
  have hceil' := Int.ceil_lt_add_one q
  unfold integerPart
  rw [abs_lt]
  split <;> constructor <;> linarith

/-- What a number is above its integer part, if it is not below it, is what it is above its floor. -/
theorem fract_of_nonneg {q : ℚ} (h : 0 ≤ q - integerPart q) : Int.fract q = q - integerPart q :=
  Int.fract_eq_iff.mpr ⟨h, (abs_lt.mp (abs_sub_integerPart_lt q)).2, integerPart q, sub_sub_self q _⟩

/-- If it is below its integer part, its floor is one less. -/
theorem fract_of_neg {q : ℚ} (h : q - integerPart q < 0) : Int.fract q = q - integerPart q + 1 := by
  have hnear := (abs_lt.mp (abs_sub_integerPart_lt q)).1
  refine Int.fract_eq_iff.mpr ⟨by linarith, by linarith, integerPart q - 1, ?_⟩
  push_cast
  ring

/-- The magnitude of a finite float is exact. -/
theorem value_abs (hx : x.isFinite = true) : x.abs.isFinite = true ∧ value x.abs = |value x| := by
  have hform := canonical_unpack x
  unfold value
  show (Float.Model.pack x.toModel.unpack.abs).unpack.isFinite = true ∧
    rational (Float.Model.pack x.toModel.unpack.abs).unpack = _
  rcases isFinite_cases hx with ⟨s, hu⟩ | ⟨s, m, e, hm, hu⟩ <;> rw [hu] at hform ⊢
  · exact ⟨isFinite_pack_zero .positive, (rational_pack_zero .positive).trans abs_zero.symm⟩
  · have habs : Canonical (finite .positive m e hm) := hform
    have hpos : (0 : ℚ) ≤ rational (finite .positive m e hm) := (rational_pos hm).le
    show (Float.Model.pack (finite .positive m e hm)).unpack.isFinite = true ∧
      rational (Float.Model.pack (finite .positive m e hm)).unpack = _
    rw [unpack_pack habs]
    refine ⟨rfl, ?_⟩
    cases s with
    | positive => exact (abs_of_nonneg hpos).symm
    | negative => rw [rational_negative, abs_neg, abs_of_nonneg hpos]

/-- **The remainder that is not negative** is rounded once. It is what is left of the dividend when the divisor has
been taken away, or added, as often as possible. -/
theorem value_positiveRemainder (hx : x.isFinite = true) (hy : y.isFinite = true) (hpos : 0 < value y) :
    (positiveRemainder x y).isFinite = true ∧
      value (positiveRemainder x y) = rounded (Int.fract (value x / value y) * value y) := by
  obtain ⟨hfinite, hvalue⟩ := value_remainder hx hy hpos.ne'
  have hscaled : value (remainder x y) = (value x / value y - integerPart (value x / value y)) * value y := by
    rw [hvalue, sub_mul, div_mul_cancel₀ _ hpos.ne', mul_comm]
  have hnegative : remainder x y < 0 ↔ value x / value y - integerPart (value x / value y) < 0 := by
    have hzero : value 0 = 0 := rfl
    rw [lt_iff_value hfinite rfl, hscaled, hzero]
    exact ⟨fun h => neg_of_mul_neg_left h hpos.le, fun h => mul_neg_of_neg_of_pos h hpos⟩
  unfold positiveRemainder
  simp only [hnegative]
  split
  · next hneg =>
    obtain ⟨hyfinite, hyvalue⟩ := value_abs hy
    have hsum : value (remainder x y) + value y.abs = Int.fract (value x / value y) * value y := by
      rw [hscaled, hyvalue, abs_of_pos hpos, fract_of_neg hneg, add_mul, one_mul]
    have hsmall : |rounded (value (remainder x y) + value y.abs)| < 2 ^ 1024 := by
      obtain ⟨hnonneg, hlt⟩ := Int.fract_div_mul_self_mem_Ico (value y) (value x) hpos
      rw [hsum]
      exact abs_rounded_lt (by rw [abs_of_nonneg hnonneg]; exact hlt.le)
    obtain ⟨hfinite', hvalue'⟩ := value_add hfinite hyfinite hsmall
    exact ⟨hfinite', by rw [hvalue', hsum]⟩
  · next hnonneg =>
    rw [fract_of_nonneg (not_lt.mp hnonneg), ← hscaled, rounded_eq_self (representable_value _)]
    exact ⟨hfinite, rfl⟩

end TypeFour.Binary64
