import Mathlib.Algebra.Order.Ring.Abs
import Mathlib.Data.Nat.Factorization.Basic
import TypeFour.Proofs.FloatArithmetic
import TypeFour.Proofs.Remainder

/-!
# `TypeFour.Proofs.IntegerQuotient` — `idiv` beside `mod`

`mod` computes with integers and `idiv` with floats: it rounds the quotient to 53 digits and takes off the fraction
of what comes out. Rounding may take a quotient across the next integer, and a quotient of more than 53 digits
cannot be pushed at all. Neither happens when the numerator of the quotient, in lowest terms, is at most `2 ^ 53`:
the next integer is then further away than half a unit of the last digit. Nor does it when the quotient is an
integer, which has no more digits than the dividend.

## Contents
- `Nearest`, `nearest_rounded` — numbers that are rounded to 53 digits, as quotients are.
- `Nearest.exists_between`, `Nearest.integerPart_bounds` — the integer part of a rounded quotient.
- `Nearest.integerPart_div`, `Nearest.integerPart_of_gcd` — where it is that of the exact one.
- `value_truncate`, `isFinite_truncate` — floats without their fraction.
- `execute_idiv_mod` — the two operators divide with remainder; `execute_idiv_mod_sevenByThree` — `-7` by three.
- `not_execute_idiv_mod` — a quotient just below an integer.
-/

namespace TypeFour

namespace Binary64

open Float.Model (Format UnpackedFloat totalExponent)
open Float.Model.UnpackedFloat

/-! ## Quotients -/

/-- **Rounding to 53 digits**: `v` is an integer number of units of the last digit of `q`, and at most half a
unit away from `q`. -/
def Nearest (q v : ℚ) : Prop :=
  ∃ g n : ℤ, 2 ^ 52 ≤ |q| / 2 ^ g ∧ |q| / 2 ^ g < 2 ^ 53 ∧ v = n * 2 ^ g ∧ |n - q / 2 ^ g| ≤ 1 / 2

/-- Numbers that are not too small are rounded to 53 digits. -/
theorem nearest_rounded {q : ℚ} (hq : 2 ^ (-1022 : ℤ) ≤ |q|) : Nearest q (rounded q) := by
  have hpos : (0 : ℚ) < 2 ^ lastDigit q := zpow_pos two_pos _
  have hne : q ≠ 0 := by
    rintro rfl
    rw [abs_zero] at hq
    exact absurd hq (not_le.mpr (zpow_pos two_pos _))
  have hlow : 2 ^ (52 + lastDigit q) ≤ |q| := by
    rcases (neg_le_lastDigit q).eq_or_lt with hlast | hlast
    · rwa [← hlast]
    · exact le_abs_of_lastDigit hne hlast
  have hhigh := abs_lt_of_lastDigit q
  rw [zpow_add₀ two_ne_zero, zpow_ofNat] at hlow hhigh
  exact ⟨lastDigit q, roundEven (q / 2 ^ lastDigit q), (le_div_iff₀ hpos).mpr hlow, (div_lt_iff₀ hpos).mpr hhigh, rfl,
    abs_roundEven_sub_le _⟩

/-- **An integer of at most 53 digits** is kept as it is. -/
theorem Nearest.eq_of_short {n : ℤ} {v : ℚ} (h : Nearest n v) (hn : Short n) : v = n := by
  obtain ⟨g, z, hlow, -, rfl, hnear⟩ := h
  have hpos : (0 : ℚ) < 2 ^ g := zpow_pos two_pos g
  rw [le_div_iff₀ hpos] at hlow
  rcases hn.representable.exists_units g with ⟨y, hy⟩ | ⟨-, hlt⟩
  · rw [hy, mul_div_cancel_right₀ _ hpos.ne'] at hnear
    have hlt : |((z - y : ℤ) : ℚ)| < 1 := by
      push_cast
      linarith
    have habs : |z - y| < 1 := by exact_mod_cast hlt
    rw [Int.abs_lt_one_iff] at habs
    rw [hy, show z = y by omega]
  · rw [zpow_add₀ two_ne_zero, zpow_ofNat] at hlt
    exact absurd hlow (not_le.mpr hlt)

/-! ## Integer parts of quotients -/

/-- What a rounded quotient of integers is in units of its last digit, if that digit is no higher than the ones:
an integer at most half a unit away, and the quotient has 53 digits. -/
theorem Nearest.scaled {a b : ℕ} {v : ℚ} (hb : 0 < b) (h : Nearest (a / b) v) (hlt : a < 2 ^ 53 * b) :
    ∃ (n : ℤ) (j : ℕ), v = n / 2 ^ j ∧ 2 ^ 52 * b ≤ a * 2 ^ j ∧ 2 * (n * b) ≤ 2 * (a * 2 ^ j) + b ∧
      2 * (a * 2 ^ j : ℤ) ≤ 2 * (n * b) + b := by
  have hpos : (0 : ℚ) < b := by exact_mod_cast hb
  obtain ⟨g, n, hlow, -, rfl, hnear⟩ := h
  rw [abs_of_nonneg (by positivity)] at hlow
  have hg : g ≤ 0 := by
    by_contra hg
    have hone : (2 : ℚ) ≤ 2 ^ g := by
      calc (2 : ℚ) = 2 ^ (1 : ℤ) := (zpow_one 2).symm
        _ ≤ 2 ^ g := zpow_le_zpow_right₀ one_le_two (by omega)
    have hsmall : (a : ℚ) / b < 2 ^ 53 := by
      rw [div_lt_iff₀ hpos]
      exact_mod_cast hlt
    rw [le_div_iff₀ (by positivity)] at hlow
    linarith
  obtain ⟨j, rfl⟩ : ∃ j : ℕ, g = -j := ⟨g.natAbs, by omega⟩
  rw [zpow_neg, zpow_natCast, div_inv_eq_mul] at hlow hnear
  refine ⟨n, j, by rw [zpow_neg, zpow_natCast]; rfl, ?_, ?_, ?_⟩
  · rw [div_mul_eq_mul_div, le_div_iff₀ hpos] at hlow
    exact_mod_cast hlow
  all_goals
    rw [abs_le, div_mul_eq_mul_div] at hnear
    have hscaled : (a * 2 ^ j : ℚ) / b * b = a * 2 ^ j := div_mul_cancel₀ _ hpos.ne'
    generalize (a * 2 ^ j : ℚ) / b = y at hnear hscaled
    have hboth : 2 * (n * b : ℚ) ≤ 2 * (a * 2 ^ j) + b ∧ 2 * (a * 2 ^ j : ℚ) ≤ 2 * (n * b) + b := by
      rw [← hscaled]
      constructor <;> nlinarith
  · exact_mod_cast hboth.1
  · exact_mod_cast hboth.2

theorem integerPart_div_two_pow {n : ℤ} {j k : ℕ} (hlow : (k * 2 ^ j : ℤ) ≤ n) (hhigh : n < (k + 1) * 2 ^ j) :
    integerPart (n / 2 ^ j) = k := by
  have hpos : (0 : ℚ) < 2 ^ j := by positivity
  have hle : (k : ℚ) ≤ n / 2 ^ j := by
    rw [le_div_iff₀ hpos]
    exact_mod_cast hlow
  rw [integerPart_of_nonneg (le_trans (by positivity) hle), Int.floor_eq_iff]
  refine ⟨by exact_mod_cast hle, ?_⟩
  rw [div_lt_iff₀ hpos]
  exact_mod_cast hhigh

/-- The nearest integer to `(b * k + r) * p / b` is between `k * p` and `(k + 1) * p`. -/
theorem between_of_nearest {n k b r p : ℤ} (hp : 0 < p) (hr : 0 ≤ r) (hlt : r < b)
    (hle : 2 * (n * b) ≤ 2 * ((b * k + r) * p) + b) (hge : 2 * ((b * k + r) * p) ≤ 2 * (n * b) + b) :
    k * p ≤ n ∧ n ≤ (k + 1) * p := by
  constructor
  · by_contra hn
    have hscaled : (n + 1) * b ≤ k * p * b := Int.mul_le_mul_of_nonneg_right (by omega) (by omega)
    have hrest : 0 ≤ r * p := Int.mul_nonneg hr hp.le
    linarith
  · by_contra hn
    have hscaled : ((k + 1) * p + 1) * b ≤ n * b := Int.mul_le_mul_of_nonneg_right (by omega) (by omega)
    have hrest : r * p ≤ b * p := Int.mul_le_mul_of_nonneg_right hlt.le hp.le
    linarith

/-- Rounding takes a quotient below `2 ^ 53` neither below its integer part nor beyond the next integer. -/
theorem Nearest.exists_between {a b : ℕ} {v : ℚ} (hb : 0 < b) (h : Nearest (a / b) v) (hlt : a < 2 ^ 53 * b) :
    ∃ (n : ℤ) (j : ℕ), v = n / 2 ^ j ∧ 2 ^ 52 * b ≤ a * 2 ^ j ∧ 2 * (n * b) ≤ 2 * (a * 2 ^ j) + b ∧
      ((a / b : ℕ) * 2 ^ j : ℤ) ≤ n ∧ n ≤ ((a / b : ℕ) + 1) * 2 ^ j := by
  obtain ⟨n, j, hv, hdigits, hle, hge⟩ := h.scaled hb hlt
  have hdiv : (a : ℤ) = b * (a / b : ℕ) + (a % b : ℕ) := by exact_mod_cast (Nat.div_add_mod a b).symm
  have hmod := Nat.mod_lt a hb
  have hpos : (0 : ℤ) < 2 ^ j := by positivity
  refine ⟨n, j, hv, hdigits, hle, ?_⟩
  rw [hdiv] at hle hge
  exact between_of_nearest hpos (by omega) (by omega) hle hge

/-- A quotient below `2 ^ 53` is rounded to less than the next integer, or to that integer. -/
theorem Nearest.integerPart_bounds {a b : ℕ} {v : ℚ} (hb : 0 < b) (h : Nearest (a / b) v)
    (hlt : a < 2 ^ 53 * b) : integerPart v = (a / b : ℕ) ∨ integerPart v = (a / b + 1 : ℕ) := by
  obtain ⟨n, j, rfl, -, -, hlow, hhigh⟩ := h.exists_between hb hlt
  have hpos : (0 : ℤ) < 2 ^ j := by positivity
  rcases Int.lt_or_eq_of_le hhigh with hhigh | rfl
  · exact .inl (integerPart_div_two_pow hlow hhigh)
  · refine .inr (integerPart_div_two_pow ?_ ?_) <;> rw [Nat.cast_succ]
    linarith

/-- If a quotient of at least 53 digits, `j` of them behind the point, falls short of the next integer by half a
unit of the last digit or less, then the dividend is greater than `2 ^ 53`. -/
theorem lt_of_gap {a b j : ℕ} (hb : 0 < b) (hdigits : 2 ^ 52 * b ≤ a * 2 ^ j)
    (hgap : 2 * (2 ^ j * (b - a % b)) ≤ b) : 2 ^ 53 < a := by
  by_contra ha
  have hmod := Nat.mod_lt a hb
  have hpos : 0 < 2 ^ j := Nat.two_pow_pos j
  -- the quotient falls short of the next integer by at least `1 / b`, so `b` is at least two units
  have hunits : 2 * 2 ^ j ≤ b := by
    calc 2 * 2 ^ j = 2 * (2 ^ j * 1) := by ring
      _ ≤ 2 * (2 ^ j * (b - a % b)) := by gcongr; omega
      _ ≤ b := hgap
  -- and as `a` allows no more, both are powers of two and the gap is one
  have hfull : a = 2 ^ 53 := by
    apply Nat.le_antisymm (Nat.le_of_not_lt ha)
    apply Nat.le_of_mul_le_mul_right _ hpos
    calc 2 ^ 53 * 2 ^ j = 2 ^ 52 * (2 * 2 ^ j) := by ring
      _ ≤ 2 ^ 52 * b := Nat.mul_le_mul_left _ hunits
      _ ≤ a * 2 ^ j := hdigits
  have hb' : b = 2 * 2 ^ j := by
    rw [hfull] at hdigits
    omega
  have hone : b - a % b = 1 := by
    apply Nat.le_antisymm _ (by omega)
    apply Nat.le_of_mul_le_mul_left _ hpos
    omega
  have hodd : a % 2 = 1 := by
    rw [← Nat.mod_mul_right_mod a 2 (2 ^ j), ← hb']
    omega
  omega

/-- **A quotient with a small numerator** is not rounded across the next integer, which is more than half a unit of
the last digit away. -/
theorem Nearest.integerPart_div {a b : ℕ} {v : ℚ} (hb : 0 < b) (h : Nearest (a / b) v) (ha : a ≤ 2 ^ 53)
    (hlt : a < 2 ^ 53 * b) : integerPart v = (a / b : ℕ) := by
  obtain ⟨n, j, rfl, hdigits, hle, hlow, hhigh⟩ := h.exists_between hb hlt
  rcases Int.lt_or_eq_of_le hhigh with hhigh | rfl
  · exact integerPart_div_two_pow hlow hhigh
  exfalso
  have hgap : 2 * (2 ^ j * (b - a % b)) ≤ b := by
    have hdiv : (a : ℤ) = b * (a / b : ℕ) + (a % b : ℕ) := by exact_mod_cast (Nat.div_add_mod a b).symm
    have hmod := Nat.mod_lt a hb
    rw [hdiv] at hle
    generalize a % b = r at hle hmod
    zify [hmod.le]
    linarith
  exact absurd (lt_of_gap hb hdigits hgap) (Nat.not_lt.mpr ha)

/-- A quotient that is an integer has no more digits than the dividend. -/
theorem Short.of_dvd {a c : ℤ} (ha : Short a) (hne : a ≠ 0) (h : c ∣ a) : Short c := by
  obtain ⟨m, k, hm, habs⟩ := ha
  have hpos : c.natAbs ≠ 0 := fun hzero => hne (zero_dvd_iff.mp (Int.natAbs_eq_zero.mp hzero ▸ h))
  obtain ⟨i, o, hodd, hc⟩ := Nat.exists_eq_two_pow_mul_odd hpos
  have hdvd : o ∣ m := by
    apply Nat.Coprime.dvd_of_dvd_mul_right (Nat.Coprime.pow_right k hodd.coprime_two_right)
    rw [← habs]
    exact Nat.dvd_trans ⟨2 ^ i, by rw [hc, Nat.mul_comm]⟩ (Int.natAbs_dvd_natAbs.mpr h)
  have hle : o ≤ m := by
    apply Nat.le_of_dvd _ hdvd
    apply Nat.pos_of_ne_zero
    rintro rfl
    rw [Nat.zero_mul] at habs
    exact hne (Int.natAbs_eq_zero.mp habs)
  exact ⟨o, i, Nat.lt_of_le_of_lt hle hm, by rw [hc, Nat.mul_comm]⟩

theorem Nearest.neg {q v : ℚ} (h : Nearest q v) : Nearest (-q) (-v) := by
  obtain ⟨g, n, hlow, hhigh, rfl, hnear⟩ := h
  refine ⟨g, -n, by rwa [abs_neg], by rwa [abs_neg], by push_cast; ring, ?_⟩
  rw [← abs_neg]
  convert hnear using 2
  push_cast
  ring

/-- Quotients of any signs are rounded as their magnitudes are. -/
theorem Nearest.exists_natAbs {a b : ℤ} {v : ℚ} (h : Nearest (a / b) v) :
    ∃ (w : ℚ) (σ : ℤ), σ.natAbs = 1 ∧ Nearest ((a.natAbs : ℚ) / (b.natAbs : ℚ)) w ∧
      integerPart v = σ * integerPart w ∧ a.tdiv b = σ * (a.natAbs / b.natAbs : ℕ) := by
  rcases Int.natAbs_eq a with ha | ha <;> rcases Int.natAbs_eq b with hb | hb <;> rw [ha, hb] at h ⊢ <;>
    simp only [Int.natAbs_neg, Int.natAbs_natCast, Int.cast_neg, Int.cast_natCast, neg_div_neg_eq, Int.neg_tdiv,
      Int.tdiv_neg, neg_neg, ← Int.ofNat_tdiv] at h ⊢
  · exact ⟨v, 1, rfl, h, by simp, by simp⟩
  · rw [div_neg] at h
    exact ⟨-v, -1, rfl, by simpa using h.neg, by rw [integerPart_neg]; ring, by simp⟩
  · rw [neg_div] at h
    exact ⟨-v, -1, rfl, by simpa using h.neg, by rw [integerPart_neg]; ring, by simp⟩
  · exact ⟨v, 1, rfl, h, by simp, by simp⟩

/-- A quotient is that of its lowest terms, whose numerator may be small. -/
theorem Nearest.integerPart_of_gcd {a b : ℕ} {v : ℚ} (h : Nearest (a / b) v) (hne : a ≠ 0) (hb : 0 < b)
    (hsmall : a ≤ 2 ^ 53 * a.gcd b) : integerPart v = (a / b : ℕ) := by
  have hgcd : 0 < a.gcd b := Nat.gcd_pos_of_pos_left b (Nat.pos_of_ne_zero hne)
  obtain ⟨m, hm⟩ : a.gcd b ∣ a := Nat.gcd_dvd_left a b
  obtain ⟨n, hn⟩ : a.gcd b ∣ b := Nat.gcd_dvd_right a b
  generalize a.gcd b = d at hgcd hm hn hsmall
  subst hm hn
  have hpos : 0 < n := Nat.pos_of_mul_pos_left hb
  have hm53 : m ≤ 2 ^ 53 := Nat.le_of_mul_le_mul_left (by rwa [Nat.mul_comm (2 ^ 53)] at hsmall) hgcd
  have hlowest : (((d * m : ℕ) : ℚ) / (d * n : ℕ)) = m / n := by
    have hcast : ((d : ℕ) : ℚ) ≠ 0 := by exact_mod_cast hgcd.ne'
    push_cast
    exact mul_div_mul_left _ _ hcast
  rw [hlowest] at h
  rw [Nat.mul_div_mul_left _ _ hgcd]
  rcases Nat.lt_or_ge m (2 ^ 53 * n) with hlt | hge
  · exact h.integerPart_div hpos hm53 hlt
  · -- `2 ^ 53` by one is an integer
    obtain rfl : n = 1 := by
      apply Nat.le_antisymm _ hpos
      omega
    obtain rfl : m = 2 ^ 53 := by omega
    have hinteger : Nearest ((2 ^ 53 : ℤ) : ℚ) v := by simpa using h
    rw [hinteger.eq_of_short ⟨2 ^ 52, 1, by norm_num, by norm_num⟩, integerPart_intCast]
    norm_num

/-- **The quotient of two integers, rounded.** Its integer part is that of the exact quotient if the numerator in
lowest terms is at most `2 ^ 53`, or if the exact quotient is an integer. -/
theorem Nearest.integerPart_eq_tdiv {a b : ℤ} {v : ℚ} (h : Nearest (a / b) v) (ha : Short a) (hne : a ≠ 0)
    (hb : b ≠ 0) (hsmall : a.natAbs ≤ 2 ^ 53 * a.gcd b ∨ b ∣ a) : integerPart v = a.tdiv b := by
  rcases hsmall with hsmall | ⟨c, rfl⟩
  · obtain ⟨w, σ, -, hw, hv, hdiv⟩ := h.exists_natAbs
    rw [hv, hdiv, hw.integerPart_of_gcd (Int.natAbs_ne_zero.mpr hne) (Int.natAbs_pos.mpr hb) hsmall]
  · have hc : c ≠ 0 := by
      rintro rfl
      exact hne (Int.mul_zero b)
    have hcast : (b : ℚ) ≠ 0 := by exact_mod_cast hb
    have hinteger : Nearest (c : ℚ) v := by
      rw [Int.cast_mul, mul_div_cancel_left₀ _ hcast] at h
      exact h
    rw [hinteger.eq_of_short (ha.of_dvd hne (Int.dvd_mul_left b c)), integerPart_intCast,
      Int.mul_tdiv_cancel_left c hb]

/-- Below `2 ^ 53` it is at most one off. -/
theorem Nearest.integerPart_near_tdiv {a b : ℤ} {v : ℚ} (h : Nearest (a / b) v) (hb : b ≠ 0)
    (hlt : a.natAbs < 2 ^ 53 * b.natAbs) : (a.tdiv b - integerPart v).natAbs ≤ 1 := by
  obtain ⟨w, σ, hσ, hw, hv, hdiv⟩ := h.exists_natAbs
  rw [hv, hdiv, ← mul_sub, Int.natAbs_mul, hσ, Nat.one_mul]
  rcases hw.integerPart_bounds (Int.natAbs_pos.mpr hb) hlt with hpart | hpart <;> rw [hpart] <;> omega

/-! ## Without the fraction -/

/-- **A float without its fraction** is its integer part. -/
theorem integerPart_truncate {x : Float} (hx : x.isFinite = true) :
    (truncate x).isFinite = true ∧ value (truncate x) = integerPart (value x) := by
  by_cases h : ∀ s m e hm, x.toModel.unpack = .finite s m e hm → 0 ≤ e
  · obtain ⟨n, hn⟩ := exists_value_eq hx h
    have hself : truncate x = x := toWhole_eq_self _ h
    rw [hself, hn, integerPart_intCast]
    exact ⟨hx, rfl⟩
  · push Not at h
    obtain ⟨s, m, e, hm, hu, he⟩ := h
    obtain ⟨hfinite, hvalue⟩ := value_toWhole (fun _ => false) hu he
    have hwhole : wholePart false m (-e).toNat = m / 2 ^ (-e).toNat := Nat.shiftRight_eq_div_pow m _
    refine ⟨hfinite, hvalue.trans ?_⟩
    rw [integerPart_value hm hu, hwhole, show e.toNat = 0 by omega, Nat.shiftLeft_zero]

theorem isFinite_truncate {x : Float} (hx : x.isFinite = true) : (truncate x).isFinite = true :=
  (integerPart_truncate hx).1

theorem value_truncate {x : Float} (hx : x.isFinite = true) : value (truncate x) = integerPart (value x) :=
  (integerPart_truncate hx).2

/-- A float that is an integer other than zero has its first digit where the integer has it. -/
theorem exists_unpack {x : Float} {a : ℤ} (hx : value x = a) (hne : a ≠ 0) (hlt : |a| < 2 ^ 63) :
    ∃ (s : Sign) (m : ℕ) (e : ℤ) (hm : 0 < m), x.toModel.unpack = .finite s m e hm ∧ 0 ≤ m.log2 + e ∧
      m.log2 + e < 63 := by
  have hcast : (a : ℚ) ≠ 0 := by exact_mod_cast hne
  unfold value at hx
  cases hu : x.toModel.unpack with
  | finite s m e hm =>
    refine ⟨s, m, e, hm, rfl, ?_⟩
    rw [hu] at hx
    have hmagnitude : (m : ℚ) * 2 ^ e = |(a : ℚ)| := by
      rw [← hx]
      show _ = |((s.apply m : ℤ) : ℚ) * 2 ^ e|
      rw [apply_cast s m, abs_mul, abs_mul, abs_apply_one, Int.cast_natCast, one_mul, Nat.abs_cast,
        abs_of_pos (zpow_pos two_pos e)]
    have hhigh : (2 : ℚ) ^ (m.log2 + e : ℤ) < 2 ^ (63 : ℤ) := by
      calc (2 : ℚ) ^ (m.log2 + e : ℤ) = (2 ^ m.log2 : ℕ) * 2 ^ e := by
            rw [zpow_add₀ two_ne_zero, zpow_natCast]
            push_cast
            rfl
        _ ≤ m * 2 ^ e := by gcongr; exact Nat.log2_self_le hm.ne'
        _ = |(a : ℚ)| := hmagnitude
        _ < 2 ^ (63 : ℤ) := by exact_mod_cast hlt
    have hlow : (2 : ℚ) ^ (0 : ℤ) < 2 ^ (m.log2 + 1 + e : ℤ) := by
      calc (2 : ℚ) ^ (0 : ℤ) = 1 := zpow_zero 2
        _ ≤ |(a : ℚ)| := by exact_mod_cast Int.one_le_abs hne
        _ = m * 2 ^ e := hmagnitude.symm
        _ < (2 ^ (m.log2 + 1) : ℕ) * 2 ^ e := by gcongr; exact Nat.lt_log2_self
        _ = 2 ^ (m.log2 + 1 + e : ℤ) := by
            rw [zpow_add₀ two_ne_zero (m.log2 + 1 : ℤ)]
            push_cast
            rfl
    have hhigh' := (zpow_lt_zpow_iff_right₀ one_lt_two).mp hhigh
    have hlow' := (zpow_lt_zpow_iff_right₀ one_lt_two).mp hlow
    omega
  | zero s =>
    rw [hu] at hx
    exact absurd hx.symm hcast
  | infinity s =>
    rw [hu] at hx
    exact absurd hx.symm hcast
  | notANumber =>
    rw [hu] at hx
    exact absurd hx.symm hcast

theorem beq_zero_of_unpack {y : Float} {s : Sign} {m : ℕ} {e : ℤ} {hm : 0 < m}
    (h : y.toModel.unpack = .finite s m e hm) : (y == 0) = false := by
  show y.toModel.unpack.beq (Float.toModel 0).unpack = false
  rw [h]
  cases s <;> rfl

end Binary64

/-! ## The operators -/

open Binary64

variable {items : List Value} {limit : Option Nat}

theorem Behaviour.quotient_of_defined {f : Float → Float → Float} {x y : Float} (hy : (y == 0) = false)
    (hf : (f x y).isFinite = true) :
    Behaviour.quotient f ⟨.number y :: .number x :: items, limit⟩ =
      Stack.push (.number (f x y)) ⟨items, limit⟩ := by
  show (if (y == 0) = true then (do throw .undefinedResult; Behaviour.pushResult _) else
    Behaviour.pushResult (f x y) : Action Unit) ⟨items, limit⟩ = _
  rw [hy, if_neg Bool.false_ne_true, Behaviour.pushResult, if_pos hf]

/-- On the numbers `x` and `y`, the upper one, above some values, `idiv` leaves the integer `q` and `mod` leaves the
integer `r` in the place of the two. -/
def LeaveIntegers (e : Elementary) (again : List Instruction → Stack → Run) (x y : Float) (items : List Value)
    (limit : Option Nat) (q r : ℤ) : Prop :=
  ∃ u v : Float, u.isFinite = true ∧ v.isFinite = true ∧ value u = q ∧ value v = r ∧
    execute e again .idiv ⟨.number y :: .number x :: items, limit⟩ = some (.ok () ⟨.number u :: items, limit⟩) ∧
    execute e again .mod ⟨.number y :: .number x :: items, limit⟩ = some (.ok () ⟨.number v :: items, limit⟩)

/-- What `idiv` computes of two integers: the integer part of their rounded quotient. -/
theorem exists_quotient {x y : Float} {a b : ℤ} (hx : x.isFinite = true) (hxa : value x = a) (hyb : value y = b)
    (ha : |a| < 2 ^ 63) (hb : |b| < 2 ^ 63) (hne : b ≠ 0) :
    (x / y).isFinite = true ∧ (a = 0 ∧ value (x / y) = 0 ∨ a ≠ 0 ∧ Nearest (a / b) (value (x / y))) := by
  obtain ⟨t, n, f, hn, hunpack, -, -⟩ := exists_unpack hyb hne hb
  have hy : y.isFinite = true := by
    show y.toModel.unpack.isFinite = true
    rw [hunpack]
    rfl
  have hyne : value y ≠ 0 := by
    rw [hyb]
    exact_mod_cast hne
  have hone : (1 : ℚ) ≤ |(b : ℚ)| := by exact_mod_cast Int.one_le_abs hne
  have hlarge : |(a : ℚ)| < 2 ^ 63 := by exact_mod_cast ha
  have hpower : Representable (2 ^ (63 : ℤ)) := .two_zpow (by norm_num)
  rw [zpow_ofNat] at hpower
  have hsmall : |(a : ℚ) / b| ≤ 2 ^ 63 := by
    rw [abs_div]
    exact (div_le_self (abs_nonneg _) hone).trans hlarge.le
  obtain ⟨hfinite, hvalue⟩ := value_div hx hy hyne (by
    rw [hxa, hyb]
    exact (abs_rounded_le hpower hsmall).trans_lt (pow_lt_pow_right₀ one_lt_two (by norm_num)))
  rw [hxa, hyb] at hvalue
  refine ⟨hfinite, ?_⟩
  rw [hvalue]
  by_cases hzero : a = 0
  · subst hzero
    exact .inl ⟨rfl, by rw [Int.cast_zero, zero_div, rounded_zero]⟩
  · refine .inr ⟨hzero, nearest_rounded ?_⟩
    have hhigh : |(b : ℚ)| < 2 ^ 63 := by exact_mod_cast hb
    have hge : (1 : ℚ) ≤ |(a : ℚ)| := by exact_mod_cast Int.one_le_abs hzero
    rw [abs_div]
    calc (2 : ℚ) ^ (-1022 : ℤ) ≤ 2 ^ (-63 : ℤ) := zpow_le_zpow_right₀ one_le_two (by norm_num)
      _ = 1 / 2 ^ 63 := by rw [zpow_neg, zpow_ofNat, one_div]
      _ ≤ |(a : ℚ)| / |(b : ℚ)| := div_le_div₀ (abs_nonneg _) hge (lt_of_lt_of_le one_pos hone) hhigh.le

/-- **Division with remainder.** On two integers inside the range of 64-bit integers, the upper one not zero and the
stack within its limit, `idiv` and `mod` both succeed and leave integers. The remainder is exact: less than the
divisor, zero or with the sign of the dividend, and a multiple of the divisor away from it. The quotient goes with
it if the numerator of the fraction of the two, in lowest terms, is at most `2 ^ 53`, or if the divisor divides the
dividend; in any case it is at most one off as long as it is below `2 ^ 53`. -/
theorem execute_idiv_mod (e : Elementary) (again : List Instruction → Stack → Run) (x y : Float) (a b : ℤ)
    (items : List Value) (limit : Option Nat)
    (hroom : Stack.hasRoom ⟨.number y :: .number x :: items, limit⟩ 0 = true) (hx : x.isFinite = true)
    (hy : y.isFinite = true) (hxa : value x = a) (hyb : value y = b) (ha : |a| < 2 ^ 63) (hb : |b| < 2 ^ 63)
    (hne : b ≠ 0) :
    ∃ q r : ℤ, LeaveIntegers e again x y items limit q r ∧
      |r| < |b| ∧ (r = 0 ∨ r.sign = a.sign) ∧ b ∣ a - r ∧
      (a.natAbs ≤ 2 ^ 53 * a.gcd b ∨ b ∣ a → a = b * q + r) ∧
      (a.natAbs < 2 ^ 53 * b.natAbs → |a - (b * q + r)| ≤ |b|) := by
  have hxpart : integerPart (value x) = a := by rw [hxa, integerPart_intCast]
  have hypart : integerPart (value y) = b := by rw [hyb, integerPart_intCast]
  have hshort : Short a := hxpart ▸ short_integerPart x
  obtain ⟨t, n, f, hn, hunpack, -, -⟩ := exists_unpack hyb hne hb
  -- the remainder
  obtain ⟨-, hremainder⟩ := execute_mod e again x y items limit hroom hx hy
  rw [hxpart, hypart] at hremainder
  obtain ⟨v, hv, hvalue, hmod⟩ := hremainder hne (.inl ha)
  rw [hxpart, hypart, ← Int.tmod_def] at hvalue
  -- the quotient
  obtain ⟨hfinite, hquotient⟩ := exists_quotient hx hxa hyb ha hb hne
  have hidiv : execute e again .idiv ⟨.number y :: .number x :: items, limit⟩ =
      some (.ok () ⟨.number (truncate (x / y)) :: items, limit⟩) := by
    have hpush : Behaviour.quotient (fun m n => truncate (m / n)) ⟨.number y :: .number x :: items, limit⟩ =
        Stack.push (.number (truncate (x / y))) ⟨items, limit⟩ :=
      Behaviour.quotient_of_defined (beq_zero_of_unpack hunpack) (isFinite_truncate hfinite)
    show some (Behaviour.quotient _ _) = _
    rw [hpush, Stack.push_operand hroom]
  refine ⟨integerPart (value (x / y)), a.tmod b, ⟨truncate (x / y), v, isFinite_truncate hfinite, hv,
    value_truncate hfinite, hvalue, hidiv, hmod⟩, ?_, ?_, Int.dvd_self_sub_tmod, ?_, ?_⟩
  · rw [Int.abs_eq_natAbs, Int.abs_eq_natAbs, Int.natAbs_tmod]
    exact_mod_cast Nat.mod_lt _ (Int.natAbs_pos.mpr hne)
  · rw [← Int.sign_eq_zero_iff_zero, Int.sign_tmod]
    split
    · exact .inl rfl
    · exact .inr rfl
  · intro hsmall
    rcases hquotient with ⟨rfl, hzero⟩ | ⟨hane, hnear⟩
    · simp [hzero, integerPart]
    · rw [hnear.integerPart_eq_tdiv hshort hane hne hsmall, Int.mul_tdiv_add_tmod]
  · intro hlt
    rcases hquotient with ⟨rfl, hzero⟩ | ⟨hane, hnear⟩
    · simp [hzero, integerPart]
    · have hone := hnear.integerPart_near_tdiv hne hlt
      have hoff : a - (b * integerPart (value (x / y)) + a.tmod b) =
          b * (a.tdiv b - integerPart (value (x / y))) := by
        rw [Int.tmod_def]
        ring
      rw [hoff, abs_mul, Int.abs_eq_natAbs (a.tdiv b - _)]
      exact mul_le_of_le_one_right (abs_nonneg b) (by exact_mod_cast hone)

/-- `-7` by three is `-2`, and `-1` is left over. -/
theorem execute_idiv_mod_sevenByThree :
    value (-7) = (-7 : ℤ) ∧ value 3 = (3 : ℤ) ∧
      LeaveIntegers .machine (replay .machine 0) (-7) 3 [] (some 100) (-2) (-1) := by
  have ha : value (-7) = (-7 : ℤ) := by
    rw [value_of_unpack (s := .negative) (m := 7 <<< 50) (e := -50) (by decide) rfl]
    norm_num [Float.Model.UnpackedFloat.Sign.apply, Nat.shiftLeft_eq]
  have hb : value 3 = (3 : ℤ) := by
    rw [value_of_unpack (s := .positive) (m := 3 <<< 51) (e := -51) (by decide) rfl]
    norm_num [Float.Model.UnpackedFloat.Sign.apply, Nat.shiftLeft_eq]
  obtain ⟨q, r, hleave, hlt, hsign, hdvd, hexact, -⟩ := execute_idiv_mod .machine (replay .machine 0) (-7) 3 (-7) 3 []
    (some 100) rfl rfl rfl ha hb (by decide) (by decide) (by decide)
  have hdivision := hexact (.inl (by decide))
  have hr : r = -1 := by
    have hthree : |(3 : ℤ)| = 3 := rfl
    rw [hthree, abs_lt] at hlt
    have hneg : r ≤ 0 := by
      rcases hsign with rfl | hsign
      · exact le_refl 0
      · exact (Int.sign_eq_neg_one_iff_neg.mp hsign).le
    omega
  have hq : q = -2 := by omega
  rw [hq, hr] at hleave
  exact ⟨ha, hb, hleave⟩

/-- `2 ^ 53 + 2 ^ 27 + 2 ^ 26` falls short of `2 ^ 26 + 1` times `2 ^ 27 + 1` by one. The quotient is rounded up to
`2 ^ 26 + 1`, while the remainder is that of the quotient `2 ^ 26`. -/
theorem not_execute_idiv_mod :
    value 9007199456067584 = (9007199456067584 : ℤ) ∧ value 134217729 = (134217729 : ℤ) ∧
      (|(9007199456067584 : ℤ)| < 2 ^ 63 ∧ |(134217729 : ℤ)| < 2 ^ 63 ∧ (134217729 : ℤ) ≠ 0) ∧
      ¬∃ q r : ℤ, LeaveIntegers .machine (replay .machine 0) 9007199456067584 134217729 [] (some 100) q r ∧
        9007199456067584 = 134217729 * q + r := by
  have hvalue {x : Float} {n m : ℕ} {e : ℤ} (hm : 0 < m) (h : x.toModel.unpack = .finite .positive m e hm)
      (hn : (m : ℚ) * 2 ^ e = n) : value x = (n : ℤ) := by
    rw [value_of_unpack hm h, Int.cast_natCast n, ← hn]
    rfl
  have ha := hvalue (x := 9007199456067584) (n := 9007199456067584) (m := 4503599728033792) (e := 1)
    (by decide) rfl (by norm_num)
  have hb := hvalue (x := 134217729) (n := 134217729) (m := 4503599660924928) (e := -25)
    (by decide) rfl (by norm_num)
  have hu := hvalue (x := 67108865) (n := 67108865) (m := 4503599694479360) (e := -26)
    (by decide) rfl (by norm_num)
  have hv := hvalue (x := 134217728) (n := 134217728) (m := 4503599627370496) (e := -25)
    (by decide) rfl (by norm_num)
  have hidiv : execute .machine (replay .machine 0) .idiv ⟨[.number 134217729, .number 9007199456067584], some 100⟩ =
      some (.ok () ⟨[.number 67108865], some 100⟩) := rfl
  have hmod : execute .machine (replay .machine 0) .mod ⟨[.number 134217729, .number 9007199456067584], some 100⟩ =
      some (.ok () ⟨[.number 134217728], some 100⟩) := rfl
  refine ⟨ha, hb, by decide, ?_⟩
  rintro ⟨q, r, ⟨u, v, -, -, hq, hr, hidiv', hmod'⟩, hdivision⟩
  rw [hidiv] at hidiv'
  rw [hmod] at hmod'
  cases hidiv'
  cases hmod'
  have hq' : (q : ℚ) = 67108865 := by rw [← hq, hu]; norm_num
  have hr' : (r : ℚ) = 134217728 := by rw [← hr, hv]; norm_num
  have hq'' : q = 67108865 := by exact_mod_cast hq'
  have hr'' : r = 134217728 := by exact_mod_cast hr'
  omega

end TypeFour
