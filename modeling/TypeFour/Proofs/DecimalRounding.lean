import TypeFour.Decimal.Basic
import TypeFour.Proofs.FloatArithmetic

/-!
# `TypeFour.Proofs.DecimalRounding` — decimals and the floats nearest to them

A decimal is an integer times a power of ten, and becomes a float by one rounding: of a product if the power is an
integer, of a quotient otherwise. Where that would be a lot of work the outcome is known beforehand. Ten is more than
eight, so with an exponent beyond 2048 there is an infinity, and with one that is as low as that below the first
digit there is nothing left. And a thousand is less than `2 ^ 10`, so the first bit of the digits can tell that
`2 ^ 1024` is reached.

## Contents
- `Decimal.sign`, `magnitude` — the number that a decimal is.
- `ten_pow_le`, `two_pow_le` — powers of ten between powers of two.
- `roundsTo_ofScientific` — digits and an exponent, rounded.
- `Decimal.roundsTo_toFloat` — a decimal, rounded.
-/

namespace TypeFour

open Float.Model (Format UnpackedFloat totalExponent)
open Float.Model.UnpackedFloat

namespace Binary64

/-! ## Powers of ten -/

theorem ten_pow_le (k : ℕ) : 10 ^ k ≤ 2 ^ (10 * (k / 3 + 1)) := by
  calc 10 ^ k ≤ 10 ^ (3 * (k / 3 + 1)) := Nat.pow_le_pow_right (by norm_num) (by omega)
    _ = 1000 ^ (k / 3 + 1) := Nat.pow_mul 10 3 _
    _ ≤ 1024 ^ (k / 3 + 1) := Nat.pow_le_pow_left (by norm_num) _
    _ = 2 ^ (10 * (k / 3 + 1)) := (Nat.pow_mul 2 10 _).symm

theorem two_pow_le (k : ℕ) : 2 ^ (3 * k) ≤ 10 ^ k := by
  rw [Nat.pow_mul]
  exact Nat.pow_le_pow_left (by norm_num) k

theorem le_rounded_two_pow {q : ℚ} (h : 2 ^ 1024 ≤ q) : 2 ^ 1024 ≤ rounded q := by
  have hpower : Representable (2 ^ (1024 : ℤ)) := .two_zpow (by norm_num)
  rw [zpow_ofNat] at hpower
  exact le_rounded hpower h

/-- A number that is too small for any digit to be left. -/
theorem RoundsTo.of_lt (s : Sign) {q : ℚ} (hq : 0 ≤ q) (h : q < 2 ^ (-1075 : ℤ)) : RoundsTo s q (.zero s) := by
  refine .zero (rounded_eq_zero ?_)
  rwa [abs_of_nonneg hq]

/-- A number that is too large. -/
theorem RoundsTo.of_le (s : Sign) {q : ℚ} (h : 2 ^ 1024 ≤ q) : RoundsTo s q (.infinity s) :=
  .infinity (le_rounded_two_pow h)

theorem RoundsTo.eq_zero {s : Sign} {q : ℚ} {u : UnpackedFloat} (h : RoundsTo s q u) (hq : 0 ≤ q)
    (hlt : q < 2 ^ (-1075 : ℤ)) : u = .zero s := by
  have hzero : rounded q = 0 := rounded_eq_zero (by rwa [abs_of_nonneg hq])
  cases h with
  | zero _ => rfl
  | @finite m e hm _ heq =>
    rw [hzero] at heq
    have hpos : (0 : ℚ) < m * 2 ^ e := mul_pos (by exact_mod_cast hm) (zpow_pos two_pos e)
    exact absurd heq hpos.ne
  | infinity hle =>
    rw [hzero] at hle
    exact absurd hle (not_le.mpr (by positivity))

theorem RoundsTo.eq_infinity {s : Sign} {q : ℚ} {u : UnpackedFloat} (h : RoundsTo s q u) (hq : 2 ^ 1024 ≤ q) :
    u = .infinity s := by
  have hlarge := le_rounded_two_pow hq
  cases h with
  | zero hzero =>
    rw [hzero] at hlarge
    exact absurd hlarge (not_le.mpr (by positivity))
  | finite hlt _ => exact absurd hlt (not_lt.mpr hlarge)
  | infinity _ => rfl

/-! ## Digits and an exponent -/

theorem le_mul_ten_zpow {m : ℕ} {e : ℤ} (hm : m ≠ 0) (he : 2048 < e) : (2 : ℚ) ^ 1024 ≤ m * 10 ^ e := by
  obtain ⟨k, rfl⟩ := Int.eq_ofNat_of_zero_le (show 0 ≤ e by omega)
  have hone : (1 : ℚ) ≤ m := by exact_mod_cast Nat.pos_of_ne_zero hm
  calc (2 : ℚ) ^ 1024 ≤ 2 ^ (3 * k) := pow_le_pow_right₀ one_le_two (by omega)
    _ ≤ 10 ^ k := by exact_mod_cast two_pow_le k
    _ = 1 * 10 ^ (k : ℤ) := by rw [one_mul, zpow_natCast]
    _ ≤ m * 10 ^ (k : ℤ) := by gcongr

theorem mul_ten_zpow_lt {m : ℕ} {e : ℤ} (he : e < -(2048 + m.log2)) : (m : ℚ) * 10 ^ e < 2 ^ (-1075 : ℤ) := by
  obtain ⟨k, rfl⟩ : ∃ k : ℕ, e = -(k : ℤ) := ⟨e.natAbs, by omega⟩
  have hdigits : (m : ℚ) < 2 ^ (m.log2 + 1) := by exact_mod_cast Nat.lt_log2_self
  have hpower : (2 : ℚ) ^ (3 * k) ≤ 10 ^ k := by exact_mod_cast two_pow_le k
  have hpos : (0 : ℚ) < 10 ^ k := by positivity
  rw [zpow_neg, zpow_natCast, ← div_eq_mul_inv, div_lt_iff₀ hpos]
  calc (m : ℚ) < 2 ^ (m.log2 + 1 : ℤ) := by exact_mod_cast hdigits
    _ ≤ 2 ^ (-1075 + (3 * k : ℕ) : ℤ) := zpow_le_zpow_right₀ one_le_two (by omega)
    _ = 2 ^ (-1075 : ℤ) * 2 ^ (3 * k) := by rw [zpow_add₀ two_ne_zero, zpow_natCast]
    _ ≤ 2 ^ (-1075 : ℤ) * 10 ^ k := by gcongr

/-- With 53 zeros behind, a product has enough digits. -/
theorem le_log2_shiftLeft_mul {m n : ℕ} (hm : m ≠ 0) (hn : n ≠ 0) : 53 ≤ (m <<< 53 * n).log2 := by
  have hpos : 0 < m * n := Nat.mul_pos (Nat.pos_of_ne_zero hm) (Nat.pos_of_ne_zero hn)
  have hproduct : m <<< 53 * n = (m * n) * 2 ^ 53 := by
    rw [Nat.shiftLeft_eq, Nat.mul_right_comm]
  rw [hproduct, Nat.le_log2 (by positivity)]
  exact Nat.le_mul_of_pos_left _ hpos

/-- **Digits and an exponent are rounded once.** -/
theorem roundsTo_ofScientific (m : ℕ) (e : ℤ) :
    RoundsTo .positive (m * 10 ^ e) (Float.Model.pack (UnpackedFloat.ofScientific .binary64 m e)).unpack := by
  have hnonneg : (0 : ℚ) ≤ m * 10 ^ e := by positivity
  unfold UnpackedFloat.ofScientific
  split
  · next hm =>
    rw [hm, Nat.cast_zero, zero_mul]
    exact .zero rounded_zero
  next hm =>
  split
  · next he =>
    have hlarge : 2048 < e := he
    exact .of_le .positive (le_mul_ten_zpow hm hlarge)
  split
  · next he =>
    have hsmall : e < -(2048 + m.log2) := he
    exact .of_lt .positive hnonneg (mul_ten_zpow_lt hsmall)
  split
  · next he =>
    obtain ⟨k, rfl⟩ := Int.eq_ofNat_of_zero_le he
    -- the digits have zeros behind them, so that there are enough for the rounding
    have hdigits : (m : ℚ) * (10 : ℚ) ^ (k : ℤ) =
        ((m <<< 53 : ℕ) : ℚ) * 2 ^ (-53 : ℤ) * (((10 ^ k : ℕ) : ℚ) * 2 ^ (0 : ℤ)) := by
      rw [Nat.shiftLeft_eq, zpow_neg, zpow_natCast]
      push_cast
      field_simp
    have htotal : totalExponent (m <<< 53 * 10 ^ k) (-53 + 0) = ((m <<< 53 * 10 ^ k).log2 : ℤ) + 1 + (-53 + 0) := rfl
    have hbits : 53 ≤ (m <<< 53 * 10 ^ k).log2 := le_log2_shiftLeft_mul hm (by positivity)
    rw [hdigits]
    exact roundsTo_mul (s := .positive) (t := .positive) (by omega)
  · next he =>
    obtain ⟨k, rfl⟩ : ∃ k : ℕ, e = -(k : ℤ) := ⟨e.natAbs, by omega⟩
    have hquotient : (m : ℚ) * 10 ^ (-(k : ℤ)) = (m : ℚ) * 2 ^ (0 : ℤ) / (((10 ^ k : ℕ) : ℚ) * 2 ^ (0 : ℤ)) := by
      rw [zpow_neg, zpow_natCast, zpow_zero, mul_one, mul_one, ← div_eq_mul_inv]
      push_cast
      rfl
    have hpower : (-(-(k : ℤ))).toNat = k := by omega
    rw [hquotient]
    simp only [hpower]
    exact roundsTo_div (s := .positive) (t := .positive)

end Binary64

namespace Decimal

open Binary64

/-! ## Decimals -/

/-- The sign of a decimal, which zero has as well. -/
def sign (d : Decimal) : Sign :=
  if d.negative then .negative else .positive

/-- The number that a decimal is, without its sign. -/
def magnitude (d : Decimal) : ℚ :=
  d.digits * 10 ^ d.exponent

theorem magnitude_nonneg (d : Decimal) : 0 ≤ d.magnitude := by
  unfold magnitude
  positivity

/-- What the first bit of the digits tells. -/
theorem le_magnitude_of_isHuge {d : Decimal} (h : d.isHuge = true) : 2 ^ 1024 ≤ d.magnitude := by
  obtain ⟨negative, m, e⟩ := d
  have hlog : 1024 + 10 * ((-e).toNat / 3 + 1) ≤ m.log2 := of_decide_eq_true h
  generalize hk : (-e).toNat = k at hlog
  have hm : m ≠ 0 := by
    rintro rfl
    rw [Nat.log2_zero] at hlog
    omega
  have hself : 2 ^ (1024 + 10 * (k / 3 + 1)) ≤ m :=
    Nat.le_trans (Nat.pow_le_pow_right Nat.two_pos hlog) (Nat.log2_self_le hm)
  have hbits : (2 : ℚ) ^ 1024 * 2 ^ (10 * (k / 3 + 1)) ≤ m := by
    rw [← pow_add]
    exact_mod_cast hself
  have hpower : (10 : ℚ) ^ k ≤ 2 ^ (10 * (k / 3 + 1)) := by exact_mod_cast ten_pow_le k
  have hpos : (0 : ℚ) < 10 ^ k := by positivity
  calc (2 : ℚ) ^ 1024 ≤ m / 10 ^ k := by
        rw [le_div_iff₀ hpos]
        exact le_trans (mul_le_mul_of_nonneg_left hpower (by positivity)) hbits
    _ = m * 10 ^ (-(k : ℤ)) := by rw [zpow_neg, zpow_natCast, div_eq_mul_inv]
    _ ≤ m * 10 ^ e := by
        gcongr
        · norm_num
        · omega

/-- **A decimal becomes the nearest float**, with its sign. -/
theorem roundsTo_toFloat (d : Decimal) : RoundsTo d.sign d.magnitude d.toFloat.toModel.unpack := by
  have hround : RoundsTo .positive d.magnitude
      (if d.isHuge then 1 / 0 else Float.ofModel (.ofScientific d.digits d.exponent) : Float).toModel.unpack := by
    split
    · next hhuge =>
      have hinfinite : (1 / 0 : Float).toModel.unpack = .infinity .positive := rfl
      rw [hinfinite]
      exact .of_le .positive (le_magnitude_of_isHuge hhuge)
    · exact roundsTo_ofScientific d.digits d.exponent
  unfold toFloat sign
  simp only
  split
  · rw [unpack_neg]
    exact hround.neg
  · exact hround

end Decimal

end TypeFour
