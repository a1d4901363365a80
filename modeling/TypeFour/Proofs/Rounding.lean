import Mathlib.Data.Int.Log
import TypeFour.Proofs.FloatValue

/-!
# `TypeFour.Proofs.Rounding` — the float nearest to a number

A float keeps 53 binary digits of a number, and none that is more than 1074 places behind the point. So the nearest
float is an integer number of units of the last digit that is kept: the nearest integer, and of two equally near
ones the even one. No other number with so few digits is nearer, and none is crossed on the way. If the number that
comes out is `2 ^ 1024` or more, there is no such float, and the outcome is an infinity.

## Contents
- `roundEven` — the integer nearest to a rational number.
- `rounded` — the nearest number of so few digits; `Representable`, `abs_rounded_sub_le` — there is none nearer.
- `rounded_eq_self`, `le_rounded`, `rounded_le` — what is not changed, and what is not crossed.
- `RoundsTo`, `roundsTo_roundWithAccuracy`, `roundsTo_round`, `roundsTo_normalize` — how floats are rounded.
-/

namespace TypeFour.Binary64

open Float.Model (Format UnpackedFloat totalExponent)
open Float.Model.UnpackedFloat

/-! ## The nearest integer -/

/-- The integer nearest to a number; of two equally near ones, the even one. -/
def roundEven (q : ℚ) : ℤ :=
  if Int.fract q < 1 / 2 then ⌊q⌋ else if 1 / 2 < Int.fract q then ⌊q⌋ + 1 else ⌊q⌋ + ⌊q⌋ % 2

/-- The only integers within one half of a number are the two around it. -/
theorem eq_floor_or_of_abs_sub_le {q : ℚ} {n : ℤ} (h : |n - q| ≤ 1 / 2) :
    n = ⌊q⌋ ∧ Int.fract q ≤ 1 / 2 ∨ n = ⌊q⌋ + 1 ∧ 1 / 2 ≤ Int.fract q := by
  have hsum := Int.floor_add_fract q
  have hnonneg := Int.fract_nonneg q
  have hlt := Int.fract_lt_one q
  rw [abs_le] at h
  have hlow : ((⌊q⌋ - 1 : ℤ) : ℚ) < n := by push_cast; linarith
  have hhigh : (n : ℚ) < (⌊q⌋ + 2 : ℤ) := by push_cast; linarith
  have hlow' : ⌊q⌋ - 1 < n := by exact_mod_cast hlow
  have hhigh' : n < ⌊q⌋ + 2 := by exact_mod_cast hhigh
  obtain rfl | rfl : n = ⌊q⌋ ∨ n = ⌊q⌋ + 1 := by omega
  · exact .inl ⟨rfl, by linarith⟩
  · refine .inr ⟨rfl, ?_⟩
    push_cast at h
    linarith

theorem abs_floor_sub (q : ℚ) : |(⌊q⌋ : ℚ) - q| = Int.fract q := by
  rw [abs_sub_comm, Int.self_sub_floor, abs_of_nonneg (Int.fract_nonneg q)]

theorem abs_floor_add_one_sub (q : ℚ) : |((⌊q⌋ + 1 : ℤ) : ℚ) - q| = 1 - Int.fract q := by
  have hsum := Int.floor_add_fract q
  have hlt := Int.fract_lt_one q
  push_cast
  rw [abs_of_pos (by linarith)]
  linarith

theorem roundEven_eq_iff {q : ℚ} {n : ℤ} :
    roundEven q = n ↔ |n - q| < 1 / 2 ∨ |n - q| = 1 / 2 ∧ n % 2 = 0 := by
  have hbelow := abs_floor_sub q
  have habove := abs_floor_add_one_sub q
  have hnear (h : |(n : ℚ) - q| < 1 / 2 ∨ |(n : ℚ) - q| = 1 / 2 ∧ n % 2 = 0) :=
    eq_floor_or_of_abs_sub_le (h.elim le_of_lt fun h => h.1.le)
  unfold roundEven
  split
  · next hhalf =>
    constructor
    · rintro rfl
      exact .inl (by rwa [hbelow])
    · intro h
      rcases hnear h with ⟨rfl, -⟩ | ⟨-, hfract⟩
      · rfl
      · exact absurd hhalf (not_lt.mpr hfract)
  split
  · next hhalf =>
    constructor
    · rintro rfl
      exact .inl (by rw [habove]; linarith)
    · intro h
      rcases hnear h with ⟨-, hfract⟩ | ⟨rfl, -⟩
      · exact absurd hhalf (not_lt.mpr hfract)
      · rfl
  · next hbelow' habove' =>
    -- halfway, the parity decides
    have hhalf : Int.fract q = 1 / 2 := le_antisymm (not_lt.mp habove') (not_lt.mp hbelow')
    rw [hhalf] at hbelow habove
    have hparity : ⌊q⌋ % 2 = 0 ∨ ⌊q⌋ % 2 = 1 := Int.emod_two_eq_zero_or_one ⌊q⌋
    constructor
    · rintro rfl
      rcases hparity with hparity | hparity <;> rw [hparity]
      · exact .inr ⟨by rw [add_zero, hbelow], by omega⟩
      · exact .inr ⟨by rw [habove]; norm_num, by omega⟩
    · intro h
      have heven : n % 2 = 0 := by
        rcases h with hlt | ⟨-, heven⟩
        · rcases hnear (.inl hlt) with ⟨rfl, -⟩ | ⟨rfl, -⟩
          · exact absurd hbelow hlt.ne
          · exact absurd habove (by linarith)
        · exact heven
      rcases hnear h with ⟨rfl, -⟩ | ⟨rfl, -⟩ <;> omega

theorem abs_roundEven_sub_le (q : ℚ) : |roundEven q - q| ≤ 1 / 2 :=
  (roundEven_eq_iff.mp rfl).elim le_of_lt fun h => h.1.le

theorem roundEven_intCast (n : ℤ) : roundEven n = n :=
  roundEven_eq_iff.mpr (.inl (by norm_num))

theorem roundEven_neg (q : ℚ) : roundEven (-q) = -roundEven q := by
  rw [roundEven_eq_iff]
  have habs : |((-roundEven q : ℤ) : ℚ) - -q| = |(roundEven q : ℚ) - q| := by
    rw [← abs_neg]
    push_cast
    congr 1
    ring
  rw [habs, Int.neg_emod_two]
  exact roundEven_eq_iff.mp rfl

/-- No integer is crossed. -/
theorem le_roundEven {n : ℤ} {q : ℚ} (h : n ≤ q) : n ≤ roundEven q := by
  have hnear := abs_le.mp (abs_roundEven_sub_le q)
  have hlt : ((n - 1 : ℤ) : ℚ) < roundEven q := by
    push_cast
    linarith
  have hlt' : n - 1 < roundEven q := by exact_mod_cast hlt
  omega

/-- No other integer is nearer. -/
theorem abs_roundEven_sub_le_abs (q : ℚ) (n : ℤ) : |roundEven q - q| ≤ |n - q| := by
  rcases eq_or_ne n (roundEven q) with rfl | hne
  · exact le_rfl
  · have hone : 1 ≤ |n - roundEven q| := Int.one_le_abs (sub_ne_zero.mpr hne)
    have hone' : (1 : ℚ) ≤ |(n : ℚ) - roundEven q| := by exact_mod_cast hone
    have htriangle := abs_sub_le (n : ℚ) q (roundEven q)
    have hnear := abs_roundEven_sub_le q
    rw [abs_sub_comm q] at htriangle
    linarith

/-- **What is cut off decides** which of the two integers around it is the nearest. -/
theorem Cut.roundEven_eq {em : ExtendedMantissa} {x : ℚ} (h : Cut em x) : roundEven x = em.roundedMantissa := by
  have hparity : em.mantissa % 2 = 0 ∨ em.mantissa % 2 = 1 := Nat.mod_two_eq_zero_or_one _
  rw [roundEven_eq_iff]
  unfold Cut at h
  unfold ExtendedMantissa.roundedMantissa
  split at h
  · next hcut =>
    rw [hcut]
    refine .inl ?_
    show |((em.mantissa : ℤ) : ℚ) - x| < 1 / 2
    rw [h, Int.cast_natCast, sub_self, abs_zero]
    norm_num
  · next hcut =>
    rw [hcut]
    refine .inl ?_
    show |((em.mantissa : ℤ) : ℚ) - x| < 1 / 2
    rw [Int.cast_natCast, abs_lt]
    constructor <;> linarith
  · next hcut =>
    rw [hcut]
    refine .inr ?_
    show |((em.mantissa + em.mantissa % 2 : ℕ) : ℤ) - x| = 1 / 2 ∧ ((em.mantissa + em.mantissa % 2 : ℕ) : ℤ) % 2 = 0
    refine ⟨?_, by omega⟩
    rcases hparity with hparity | hparity <;> rw [hparity, h] <;> push_cast <;> norm_num
  · next hcut =>
    rw [hcut]
    refine .inl ?_
    show |((em.mantissa + 1 : ℕ) : ℤ) - x| < 1 / 2
    push_cast
    rw [abs_lt]
    constructor <;> linarith

/-! ## The nearest number of 53 digits -/

/-- The place of the last digit that is kept: the first digit and 52 more, but none after the 1074th behind the
point. -/
def lastDigit (q : ℚ) : ℤ :=
  max (Int.log 2 |q| - 52) (-1074)

/-- **The number nearest to `q`** that has so few digits. -/
def rounded (q : ℚ) : ℚ :=
  roundEven (q / 2 ^ lastDigit q) * 2 ^ lastDigit q

/-- A number of at most 53 digits, none of them after the 1074th behind the point. -/
def Representable (q : ℚ) : Prop :=
  ∃ z h : ℤ, |z| < 2 ^ 53 ∧ -1074 ≤ h ∧ q = z * 2 ^ h

theorem neg_le_lastDigit (q : ℚ) : -1074 ≤ lastDigit q :=
  le_max_right _ _

/-- The digits before the last one that is kept. -/
theorem abs_lt_of_lastDigit (q : ℚ) : |q| < 2 ^ (53 + lastDigit q) := by
  calc |q| < 2 ^ (Int.log 2 |q| + 1) := Int.lt_zpow_succ_log_self one_lt_two |q|
    _ ≤ 2 ^ (53 + lastDigit q) := by
      apply zpow_le_zpow_right₀ one_le_two
      have hle : Int.log 2 |q| - 52 ≤ lastDigit q := le_max_left _ _
      omega

theorem le_abs_of_lastDigit {q : ℚ} (hq : q ≠ 0) (h : -1074 < lastDigit q) : 2 ^ (52 + lastDigit q) ≤ |q| := by
  have hlog : 52 + lastDigit q = Int.log 2 |q| := by
    unfold lastDigit at h ⊢
    omega
  rw [hlog]
  exact Int.zpow_log_le_self one_lt_two (abs_pos.mpr hq)

/-- Where the last digit is. -/
theorem lastDigit_eq {q : ℚ} {g : ℤ} (hq : q ≠ 0) (hg : -1074 ≤ g) (hlow : -1074 < g → 2 ^ (52 + g) ≤ |q|)
    (hhigh : |q| < 2 ^ (53 + g)) : lastDigit q = g := by
  have hpos : 0 < |q| := abs_pos.mpr hq
  have hlt : Int.log 2 |q| < 53 + g := (Int.lt_zpow_iff_log_lt one_lt_two hpos).mp hhigh
  unfold lastDigit
  rcases hg.eq_or_lt with rfl | hg
  · omega
  · have hle : 52 + g ≤ Int.log 2 |q| := (Int.zpow_le_iff_le_log one_lt_two hpos).mp (hlow hg)
    omega

theorem lastDigit_neg (q : ℚ) : lastDigit (-q) = lastDigit q := by
  rw [lastDigit, lastDigit, abs_neg]

theorem rounded_neg (q : ℚ) : rounded (-q) = -rounded q := by
  rw [rounded, rounded, lastDigit_neg, neg_div, roundEven_neg]
  push_cast
  ring

theorem rounded_zero : rounded 0 = 0 := by
  have hzero : roundEven 0 = 0 := by simpa using roundEven_intCast 0
  rw [rounded, zero_div, hzero, Int.cast_zero, zero_mul]

/-- Fewer than 54 digits are below the place in front of them. -/
theorem mul_two_zpow_lt_of_lt {a : ℚ} {e f : ℤ} (ha : a < 2 ^ 53) (hf : 53 + e ≤ f) : a * 2 ^ e < 2 ^ f := by
  calc a * 2 ^ e < 2 ^ 53 * 2 ^ e := mul_lt_mul_of_pos_right ha (zpow_pos two_pos e)
    _ = 2 ^ (53 + e) := by rw [zpow_add₀ two_ne_zero, zpow_ofNat]
    _ ≤ 2 ^ f := zpow_le_zpow_right₀ one_le_two hf

/-- And 53 digits reach up to the place of the first one. -/
theorem two_zpow_le_mul_of_le {a : ℚ} {e f : ℤ} (ha : 2 ^ 52 ≤ a) (hf : f ≤ 52 + e) : 2 ^ f ≤ a * 2 ^ e := by
  calc (2 : ℚ) ^ f ≤ 2 ^ (52 + e) := zpow_le_zpow_right₀ one_le_two hf
    _ = 2 ^ 52 * 2 ^ e := by rw [zpow_add₀ two_ne_zero, zpow_ofNat]
    _ ≤ a * 2 ^ e := mul_le_mul_of_nonneg_right ha (zpow_pos two_pos e).le

theorem abs_mul_two_zpow_lt {z e f : ℤ} (hz : |z| < 2 ^ 53) (hf : 53 + e ≤ f) : |(z : ℚ) * 2 ^ e| < 2 ^ f := by
  have hz' : |(z : ℚ)| < 2 ^ 53 := by exact_mod_cast hz
  have hpos : (0 : ℚ) < 2 ^ e := zpow_pos two_pos e
  rw [abs_mul, abs_of_pos hpos]
  exact mul_two_zpow_lt_of_lt hz' hf

/-- Integers that are nowhere near `2 ^ 1024`. -/
theorem abs_intCast_lt {n : ℤ} (h : |n| ≤ 2 ^ 63) : |(n : ℚ)| < 2 ^ 1024 := by
  have h' : |(n : ℚ)| ≤ 2 ^ 63 := by exact_mod_cast h
  exact h'.trans_lt (pow_lt_pow_right₀ one_lt_two (by norm_num))

theorem two_pow_units (g : ℤ) : ((2 ^ 52 : ℤ) : ℚ) * 2 ^ g = 2 ^ (52 + g) := by
  rw [zpow_add₀ two_ne_zero]
  norm_num

namespace Representable

variable {q r : ℚ}

theorem neg (h : Representable r) : Representable (-r) := by
  obtain ⟨z, h, hz, hh, rfl⟩ := h
  exact ⟨-z, h, by rwa [abs_neg], hh, by push_cast; ring⟩

theorem zero : Representable 0 :=
  ⟨0, 0, by norm_num, by norm_num, by norm_num⟩

theorem two_zpow {h : ℤ} (hh : -1074 ≤ h) : Representable (2 ^ h) :=
  ⟨1, h, by norm_num, hh, by norm_num⟩

theorem intCast {n : ℤ} (hn : |n| < 2 ^ 53) : Representable n :=
  ⟨n, 0, hn, by norm_num, by norm_num⟩

/-- It is an integer number of units of a digit, or less than 52 digits before that one can write. -/
theorem exists_units (hr : Representable r) (g : ℤ) :
    (∃ n : ℤ, r = n * 2 ^ g) ∨ -1074 < g ∧ |r| < 2 ^ (52 + g) := by
  obtain ⟨z, h, hz, hh, rfl⟩ := hr
  rcases le_or_gt g h with hle | hlt
  · obtain ⟨k, rfl⟩ := Int.le.dest hle
    refine .inl ⟨z * 2 ^ k, ?_⟩
    rw [zpow_add₀ two_ne_zero, zpow_natCast]
    push_cast
    ring
  · exact .inr ⟨by omega, abs_mul_two_zpow_lt hz (by omega)⟩

end Representable

section

variable {q r : ℚ}

theorem le_rounded_of_units {n : ℤ} (h : n * 2 ^ lastDigit q ≤ q) : n * 2 ^ lastDigit q ≤ rounded q := by
  have hpos : (0 : ℚ) < 2 ^ lastDigit q := zpow_pos two_pos _
  have hle : (n : ℚ) ≤ roundEven (q / 2 ^ lastDigit q) := by
    exact_mod_cast le_roundEven ((le_div_iff₀ hpos).mpr h)
  exact mul_le_mul_of_nonneg_right hle hpos.le

/-- **No number of so few digits is crossed.** -/
theorem le_rounded (hr : Representable r) (h : r ≤ q) : r ≤ rounded q := by
  rcases hr.exists_units (lastDigit q) with ⟨n, rfl⟩ | ⟨hlast, hlt⟩
  · exact le_rounded_of_units h
  · rcases eq_or_ne q 0 with rfl | hq
    · rwa [rounded_zero]
    · have hle := le_abs_of_lastDigit hq hlast
      have hpos : 0 ≤ q := by
        by_contra hneg
        rw [abs_of_neg (not_le.mp hneg)] at hle
        have hself := neg_abs_le r
        linarith
      rw [abs_of_nonneg hpos] at hle
      calc r ≤ |r| := le_abs_self r
        _ ≤ ((2 ^ 52 : ℤ) : ℚ) * 2 ^ lastDigit q := by rw [two_pow_units]; exact hlt.le
        _ ≤ rounded q := le_rounded_of_units (by rwa [two_pow_units])

theorem rounded_le (hr : Representable r) (h : q ≤ r) : rounded q ≤ r := by
  have hneg := le_rounded hr.neg (neg_le_neg h)
  rw [rounded_neg] at hneg
  exact neg_le_neg_iff.mp hneg

theorem abs_rounded_le (hr : Representable r) (h : |q| ≤ r) : |rounded q| ≤ r := by
  rw [abs_le] at h ⊢
  exact ⟨le_rounded hr.neg h.1, rounded_le hr h.2⟩

/-- **A number of so few digits** is kept as it is. -/
theorem rounded_eq_self (h : Representable q) : rounded q = q :=
  le_antisymm (rounded_le h le_rfl) (le_rounded h le_rfl)

/-- **No other number of so few digits is nearer.** -/
theorem abs_rounded_sub_le (hr : Representable r) (q : ℚ) : |rounded q - q| ≤ |r - q| := by
  have hpos : (0 : ℚ) < 2 ^ lastDigit q := zpow_pos two_pos _
  have hunits (n : ℤ) : |n * 2 ^ lastDigit q - q| = |n - q / 2 ^ lastDigit q| * 2 ^ lastDigit q := by
    rw [← abs_of_pos hpos, ← abs_mul, abs_of_pos hpos, sub_mul, div_mul_cancel₀ _ hpos.ne']
  have hgrid (n : ℤ) : |rounded q - q| ≤ |n * 2 ^ lastDigit q - q| := by
    rw [rounded, hunits, hunits]
    exact mul_le_mul_of_nonneg_right (abs_roundEven_sub_le_abs _ n) hpos.le
  rcases hr.exists_units (lastDigit q) with ⟨n, rfl⟩ | ⟨hlast, hlt⟩
  · exact hgrid n
  · rcases eq_or_ne q 0 with rfl | hq
    · simp [rounded_zero]
    -- the first digit of `q` alone lies between the two
    have hle := le_abs_of_lastDigit hq hlast
    rw [abs_lt] at hlt
    rcases abs_cases q with ⟨habs, -⟩ | ⟨habs, -⟩ <;> rw [habs] at hle
    · refine (hgrid (2 ^ 52)).trans ?_
      rw [two_pow_units, abs_of_nonpos (by linarith), abs_of_nonpos (by linarith)]
      linarith
    · refine (hgrid (-2 ^ 52)).trans ?_
      rw [Int.cast_neg, neg_mul, two_pow_units, abs_of_nonneg (by linarith), abs_of_nonneg (by linarith)]
      linarith

/-- A number below half a unit of the last place behind the point is lost. -/
theorem rounded_eq_zero (h : |q| < 2 ^ (-1075 : ℤ)) : rounded q = 0 := by
  rcases eq_or_ne q 0 with rfl | hq
  · exact rounded_zero
  · have hlast : lastDigit q = -1074 := by
      apply lastDigit_eq hq le_rfl (fun h => absurd h (lt_irrefl _))
      exact h.trans (zpow_lt_zpow_right₀ one_lt_two (by norm_num))
    have hunits : (2 : ℚ) ^ (-1075 : ℤ) = 1 / 2 * 2 ^ (-1074 : ℤ) := by
      rw [show (-1075 : ℤ) = -1 + -1074 by norm_num, zpow_add₀ two_ne_zero]
      norm_num
    have hpos : (0 : ℚ) < 2 ^ (-1074 : ℤ) := zpow_pos two_pos _
    have hzero : roundEven (q / 2 ^ (-1074 : ℤ)) = 0 := by
      rw [roundEven_eq_iff]
      refine .inl ?_
      rwa [Int.cast_zero, zero_sub, abs_neg, abs_div, abs_of_pos hpos, div_lt_iff₀ hpos, ← hunits]
    rw [rounded, hlast, hzero, Int.cast_zero, zero_mul]

end

/-! ## Rounding floats -/

/-- What rounding makes of a magnitude `q` with a sign `s`: a zero if nothing is left of it, an infinity if `2 ^ 1024`
or more is left, and otherwise the nearest float. -/
inductive RoundsTo (s : Sign) (q : ℚ) : UnpackedFloat → Prop where
  | zero : rounded q = 0 → RoundsTo s q (.zero s)
  | finite {m : ℕ} {e : ℤ} {hm : 0 < m} : rounded q < 2 ^ 1024 → rounded q = m * 2 ^ e → RoundsTo s q (.finite s m e hm)
  | infinity : 2 ^ 1024 ≤ rounded q → RoundsTo s q (.infinity s)

theorem RoundsTo.isFinite_iff {s : Sign} {q : ℚ} {u : UnpackedFloat} (h : RoundsTo s q u) :
    u.isFinite = true ↔ rounded q < 2 ^ 1024 := by
  cases h with
  | zero hzero =>
    rw [hzero]
    exact ⟨fun _ => by norm_num, fun _ => rfl⟩
  | finite hlt _ => exact ⟨fun _ => hlt, fun _ => rfl⟩
  | infinity hle => exact ⟨nofun, fun hlt => absurd hlt (not_lt.mpr hle)⟩

theorem RoundsTo.rational_eq {s : Sign} {q : ℚ} {u : UnpackedFloat} (h : RoundsTo s q u) (hlt : rounded q < 2 ^ 1024) :
    rational u = s.apply 1 * rounded q := by
  cases h with
  | zero hzero => rw [hzero, mul_zero]; rfl
  | @finite m e hm _ heq =>
    show ((s.apply m : ℤ) : ℚ) * 2 ^ e = _
    rw [apply_cast s m, heq, Int.cast_natCast, mul_assoc]
  | infinity hle => exact absurd hlt (not_lt.mpr hle)

theorem RoundsTo.neg {s : Sign} {q : ℚ} {u : UnpackedFloat} (h : RoundsTo s q u) : RoundsTo (-s) q u.neg := by
  cases h with
  | zero hzero => exact .zero hzero
  | finite hlt heq => exact .finite hlt heq
  | infinity hle => exact .infinity hle

theorem abs_apply_one (s : Sign) : |((s.apply 1 : ℤ) : ℚ)| = 1 := by
  cases s <;> simp [Sign.apply]

/-- The sign makes no difference to the digits. -/
theorem rounded_apply (s : Sign) (q : ℚ) : rounded (s.apply 1 * q) = s.apply 1 * rounded q := by
  cases s with
  | positive => simp [Sign.apply]
  | negative => simp [Sign.apply, rounded_neg]

theorem le_roundedMantissa (x : ExtendedMantissa) : x.mantissa ≤ x.roundedMantissa := by
  obtain ⟨m, r, s⟩ := x
  cases r <;> cases s <;>
    simp only [ExtendedMantissa.roundedMantissa, ExtendedMantissa.accuracy, Accuracy.roundToNearestEven] <;>
    omega

theorem log2_eq {m k : ℕ} (hlow : 2 ^ k ≤ m) (hhigh : m < 2 ^ (k + 1)) : m.log2 = k := by
  have hm : m ≠ 0 := (lt_of_lt_of_le (Nat.two_pow_pos k) hlow).ne'
  exact Nat.le_antisymm (log2_le_of_lt hhigh) ((Nat.le_log2 hm).mpr hlow)

theorem log2_shiftLeft {m : ℕ} (hm : m ≠ 0) (k : ℕ) : (m <<< k).log2 = m.log2 + k := by
  rw [Nat.shiftLeft_eq]
  apply log2_eq
  · rw [Nat.pow_add]
    exact Nat.mul_le_mul_right _ (Nat.log2_self_le hm)
  · rw [Nat.add_right_comm, Nat.pow_add]
    exact Nat.mul_lt_mul_of_pos_right Nat.lt_log2_self (Nat.two_pow_pos k)

/-- A mantissa of `53 + k` digits has 53 without the last `k`. -/
theorem le_div_two_pow {m k : ℕ} (h : m.log2 = 52 + k) : 2 ^ 52 ≤ m / 2 ^ k := by
  have hm : m ≠ 0 := by
    rintro rfl
    rw [Nat.log2_zero] at h
    omega
  rw [Nat.le_div_iff_mul_le (Nat.two_pow_pos k), ← Nat.pow_add, ← h]
  exact Nat.log2_self_le hm

/-- What is rounded is shifted to the exponent of the last digit that is kept. -/
theorem shiftToTargetExponent_of_eq {m k : ℕ} {e : ℤ} (a : Accuracy)
    (h : (max (totalExponent m e - 53) (-1074) - e).toNat = k) :
    shiftToTargetExponent .binary64 m e a = (ExtendedMantissa.ofMantissaAndAccuracy m a >>> k, e + k) := by
  subst h
  rfl

/-- After rounding there are at most 53 digits, or a one and 53 zeros. Of these, one zero is dropped. -/
theorem exists_dropped {n : ℕ} {g : ℤ} (hn : n ≤ 2 ^ 53) (hg : -1074 ≤ g) (hdigits : 2 ^ 52 ≤ n ∨ g = -1074) :
    ∃ em e, shiftToTargetExponent .binary64 n g .exact = (em, e) ∧ (n : ℚ) * 2 ^ g = em.mantissa * 2 ^ e ∧
      em.mantissa < 2 ^ 53 ∧ -1074 ≤ e ∧ (2 ^ 52 ≤ em.mantissa ∨ e = -1074) := by
  have htotal : totalExponent n g = (n.log2 : ℤ) + 1 + g := rfl
  rcases Nat.lt_or_eq_of_le hn with hlt | rfl
  · have hlog := log2_le_of_lt hlt
    refine ⟨_, _, shiftToTargetExponent_of_eq (k := 0) .exact (by omega), ?_, ?_, ?_, ?_⟩ <;>
      simp only [mantissa_shiftRight, mantissa_ofMantissaAndAccuracy, Nat.pow_zero, Nat.div_one, Int.natCast_zero,
        Int.add_zero]
    · exact hlt
    · exact hg
    · exact hdigits
  · have hlog : (2 ^ 53 : ℕ).log2 = 53 := Nat.log2_two_pow
    refine ⟨_, _, shiftToTargetExponent_of_eq (k := 1) .exact (by omega), ?_, ?_, by omega, .inl ?_⟩ <;>
      rw [mantissa_shiftRight, mantissa_ofMantissaAndAccuracy]
    · rw [show 2 ^ 53 / 2 ^ 1 = 2 ^ 52 by norm_num, zpow_add₀ two_ne_zero]
      push_cast
      ring
    · norm_num
    · norm_num

/-- The last digit that is kept, by the mantissa and the exponent of what is rounded. -/
theorem rounded_eq_of_cut {m : ℕ} {e : ℤ} {a : Accuracy} {c : ℚ} (hcut : Cut (.ofMantissaAndAccuracy m a) c)
    (he : e ≤ max (totalExponent m e - 53) (-1074)) :
    rounded (c * 2 ^ e) = roundEven (c * 2 ^ e / 2 ^ max (totalExponent m e - 53) (-1074)) *
      2 ^ max (totalExponent m e - 53) (-1074) := by
  rcases eq_or_ne c 0 with rfl | hc
  · have hzero : roundEven 0 = 0 := by simpa using roundEven_intCast 0
    simp [hzero, rounded_zero]
  have htotal : totalExponent m e = (m.log2 : ℤ) + 1 + e := rfl
  have hle := hcut.mantissa_le
  have hlt := hcut.lt_mantissa_add_one
  rw [mantissa_ofMantissaAndAccuracy] at hle hlt
  have hpos : 0 < c := lt_of_le_of_ne (le_trans (Nat.cast_nonneg m) hle) hc.symm
  have hunit : (0 : ℚ) < 2 ^ e := zpow_pos two_pos e
  have hlast : lastDigit (c * 2 ^ e) = max (totalExponent m e - 53) (-1074) := by
    apply lastDigit_eq (mul_ne_zero hc hunit.ne') (le_max_right _ _)
    · intro hnormal
      have hm : m ≠ 0 := by
        rintro rfl
        rw [Nat.log2_zero] at htotal
        omega
      have hself : ((2 ^ m.log2 : ℕ) : ℚ) ≤ m := by exact_mod_cast Nat.log2_self_le hm
      calc (2 : ℚ) ^ (52 + max (totalExponent m e - 53) (-1074)) = 2 ^ (m.log2 + e : ℤ) := by congr 1; omega
        _ = (2 ^ m.log2 : ℕ) * 2 ^ e := by rw [zpow_add₀ two_ne_zero, zpow_natCast]; push_cast; rfl
        _ ≤ c * 2 ^ e := by gcongr; exact hself.trans hle
        _ = |c * 2 ^ e| := (abs_of_pos (mul_pos hpos hunit)).symm
    · have hnext : ((m + 1 : ℕ) : ℚ) ≤ (2 ^ (m.log2 + 1) : ℕ) := by exact_mod_cast Nat.lt_log2_self
      push_cast at hnext
      calc |c * 2 ^ e| = c * 2 ^ e := abs_of_pos (mul_pos hpos hunit)
        _ < 2 ^ (m.log2 + 1) * 2 ^ e := by gcongr; exact hlt.trans_le hnext
        _ = 2 ^ (m.log2 + 1 + e : ℤ) := by rw [zpow_add₀ two_ne_zero (m.log2 + 1 : ℤ), ← zpow_natCast]; push_cast; rfl
        _ ≤ 2 ^ (53 + max (totalExponent m e - 53) (-1074)) := zpow_le_zpow_right₀ one_le_two (by omega)
  rw [rounded, hlast]

/-- A mantissa with as many digits as a float keeps is a float, unless its exponent is too large. -/
theorem roundsTo_pack (s : Sign) {m : ℕ} {e : ℤ} {q : ℚ} (hm : 0 < m) (hlt : m < 2 ^ 53) (hlow : -1074 ≤ e)
    (hdigits : 2 ^ 52 ≤ m ∨ e = -1074) (hq : rounded q = m * 2 ^ e) :
    RoundsTo s q (Float.Model.pack (.finite s m e hm)).unpack := by
  rcases le_or_gt e 971 with he | he
  · have hform : Canonical (.finite s m e hm) := ⟨hlt, hlow, he, hdigits⟩
    have hbits : (m : ℚ) < 2 ^ 53 := by exact_mod_cast hlt
    rw [unpack_pack hform]
    refine .finite ?_ hq
    rw [hq, ← zpow_ofNat]
    exact mul_two_zpow_lt_of_lt hbits (by omega)
  · have hbits : (2 : ℚ) ^ 52 ≤ m := by exact_mod_cast hdigits.resolve_right (by omega)
    rw [unpack_pack_of_lt he]
    refine .infinity ?_
    rw [hq, ← zpow_ofNat]
    exact two_zpow_le_mul_of_le hbits (by omega)

/-- **Rounding** a mantissa with something cut off behind it, if the exponent is at most that of the last digit that
is kept. -/
theorem roundsTo_roundWithAccuracy (s : Sign) {m : ℕ} {e : ℤ} {a : Accuracy} {c : ℚ}
    (hcut : Cut (.ofMantissaAndAccuracy m a) c) (he : e ≤ max (totalExponent m e - 53) (-1074)) :
    RoundsTo s (c * 2 ^ e) (Float.Model.pack (roundWithAccuracy .binary64 s m e a)).unpack := by
  have htotal : totalExponent m e = (m.log2 : ℤ) + 1 + e := rfl
  have hrounded := rounded_eq_of_cut hcut he
  have hlt := mantissa_shiftToTargetExponent_lt m e a
  obtain ⟨k, hk⟩ : ∃ k : ℕ, max (totalExponent m e - 53) (-1074) = e + k :=
    ⟨(max (totalExponent m e - 53) (-1074) - e).toNat, by omega⟩
  have hunits : c * 2 ^ e / 2 ^ (e + k) = c / 2 ^ k := by
    rw [zpow_add₀ two_ne_zero, zpow_natCast]
    field_simp
  rw [hk, hunits, (hcut.shiftRight k).roundEven_eq, Int.cast_natCast] at hrounded
  rw [shiftToTargetExponent_of_eq (k := k) a (by omega)] at hlt
  unfold roundWithAccuracy
  rw [shiftToTargetExponent_of_eq (k := k) a (by omega)]
  simp only at hlt ⊢
  have hkept : (ExtendedMantissa.ofMantissaAndAccuracy m a >>> k).mantissa = m / 2 ^ k := by
    rw [mantissa_shiftRight, mantissa_ofMantissaAndAccuracy]
  have hle := roundedMantissa_le (ExtendedMantissa.ofMantissaAndAccuracy m a >>> k)
  have hge := le_roundedMantissa (ExtendedMantissa.ofMantissaAndAccuracy m a >>> k)
  generalize (ExtendedMantissa.ofMantissaAndAccuracy m a >>> k).roundedMantissa = n at hrounded hle hge
  have hdigits : 2 ^ 52 ≤ n ∨ e + k = -1074 := by
    rcases eq_or_ne (e + k) (-1074) with hlow | hnormal
    · exact .inr hlow
    · have hlog : m.log2 = 52 + k := by omega
      have hfirst := le_div_two_pow hlog
      exact .inl (by omega)
  obtain ⟨em, g, hdrop, hvalue, hlt', hlow, hcanonical⟩ := exists_dropped (by omega) (by omega) hdigits
  rw [hvalue] at hrounded
  rw [hdrop]
  simp only
  split
  · next hzero =>
    rw [hzero, Nat.cast_zero, zero_mul] at hrounded
    have hform : Canonical (.zero s) := trivial
    rw [unpack_pack hform]
    exact .zero hrounded
  · next hzero => exact roundsTo_pack s (Nat.pos_of_ne_zero hzero) hlt' hlow hcanonical hrounded

/-- A number with as many digits as it likes: what has too few of them gets zeros behind. -/
theorem roundsTo_round (s : Sign) {m : ℕ} (hm : m ≠ 0) (e : ℤ) :
    RoundsTo s (m * 2 ^ e) (Float.Model.pack (UnpackedFloat.round .binary64 s m e)).unpack := by
  have htotal : totalExponent m e = (m.log2 : ℤ) + 1 + e := rfl
  have htarget : Format.targetExponent .binary64 (totalExponent m e) = max (totalExponent m e - 53) (-1074) := rfl
  unfold UnpackedFloat.round decreaseExponent
  simp only
  generalize hj : (e - Format.targetExponent .binary64 (totalExponent m e)).toNat = j
  have htotal' : totalExponent (m <<< j) (e - j) = totalExponent m e := by
    show ((m <<< j).log2 : ℤ) + 1 + (e - j) = _
    rw [log2_shiftLeft hm]
    omega
  have hvalue : ((m <<< j : ℕ) : ℚ) * 2 ^ (e - j) = m * 2 ^ e := by
    rw [Nat.shiftLeft_eq, zpow_sub₀ two_ne_zero, zpow_natCast]
    push_cast
    field_simp
  rw [← hvalue]
  exact roundsTo_roundWithAccuracy s (Cut.exact _) (by rw [htotal']; omega)

/-- **A number with a sign** is rounded as its magnitude is. -/
theorem roundsTo_normalize {n : ℤ} (hn : n ≠ 0) (e : ℤ) (z : Sign) :
    ∃ s : Sign, (n : ℚ) = s.apply 1 * |(n : ℚ)| ∧
      RoundsTo s (|(n : ℚ)| * 2 ^ e) (Float.Model.pack (UnpackedFloat.normalize .binary64 n e z)).unpack := by
  unfold UnpackedFloat.normalize
  split
  · next hcompare =>
    have hneg : n < 0 := compare_lt_iff_lt.mp hcompare
    have hcast : |(n : ℚ)| = ((-n).toNat : ℕ) := by
      rw [← Int.cast_natCast, Int.toNat_of_nonneg (by omega), ← Int.cast_abs, abs_of_neg hneg]
    rw [hcast]
    refine ⟨.negative, ?_, roundsTo_round .negative (by omega) e⟩
    rw [← hcast, abs_of_neg (by exact_mod_cast hneg)]
    norm_num [Sign.apply]
  · next hcompare => exact absurd (compare_eq_iff_eq.mp hcompare) hn
  · next hcompare =>
    have hpos : 0 < n := compare_gt_iff_gt.mp hcompare
    have hcast : |(n : ℚ)| = (n.toNat : ℕ) := by
      rw [← Int.cast_natCast, Int.toNat_of_nonneg (by omega), ← Int.cast_abs, abs_of_pos hpos]
    rw [hcast]
    refine ⟨.positive, ?_, roundsTo_round .positive (by omega) e⟩
    rw [← hcast, abs_of_pos (by exact_mod_cast hpos)]
    norm_num [Sign.apply]

/-- **A number that is rounded to less than `2 ^ 1024`** gives a float, and its value is the rounded number. -/
theorem value_normalize (n e : ℤ) (z : Sign) (h : |rounded (n * 2 ^ e)| < 2 ^ 1024) :
    (Float.Model.pack (UnpackedFloat.normalize .binary64 n e z)).isFinite = true ∧
      rational (Float.Model.pack (UnpackedFloat.normalize .binary64 n e z)).unpack = rounded (n * 2 ^ e) := by
  rcases eq_or_ne n 0 with rfl | hn
  · rw [Int.cast_zero, zero_mul, rounded_zero]
    exact ⟨isFinite_pack_zero z, rational_pack_zero z⟩
  · obtain ⟨s, hs, hround⟩ := roundsTo_normalize hn e z
    have hsigned : rounded (n * 2 ^ e) = s.apply 1 * rounded (|(n : ℚ)| * 2 ^ e) := by
      rw [← rounded_apply, ← mul_assoc, ← hs]
    rw [hsigned, abs_mul, abs_apply_one, one_mul] at h
    have hlt := (abs_lt.mp h).2
    rw [hsigned]
    exact ⟨hround.isFinite_iff.mpr hlt, hround.rational_eq hlt⟩

/-! ## Integers -/

theorem Short.representable {n : ℤ} (h : Short n) : Representable n := by
  obtain ⟨m, k, hm, habs⟩ := h
  have hsign : |n.sign * m| ≤ m := by
    rw [abs_mul, Nat.abs_cast]
    rcases Int.sign_trichotomy n with hn | hn | hn <;> rw [hn] <;> simp
  have hn : n = n.sign * m * 2 ^ k := by
    calc n = n.sign * (n.natAbs : ℕ) := (Int.sign_mul_natAbs n).symm
      _ = n.sign * (m * 2 ^ k : ℕ) := by rw [habs]
      _ = n.sign * m * 2 ^ k := by push_cast; ring
  refine ⟨n.sign * m, k, lt_of_le_of_lt hsign (by exact_mod_cast hm), by omega, ?_⟩
  rw [zpow_natCast]
  exact_mod_cast hn

/-- **An integer of at most 53 digits, as a float**, is that integer. -/
theorem value_ofInt64 {n : Int64} (hn : Short n.toInt) : value (ofInt64 n) = n.toInt := by
  have hself : rounded (n.toInt * 2 ^ (0 : ℤ)) = n.toInt := by
    rw [zpow_zero, mul_one, rounded_eq_self hn.representable]
  have hsmall : |rounded (n.toInt * 2 ^ (0 : ℤ))| < 2 ^ 1024 := by
    rw [hself]
    exact abs_intCast_lt (abs_le.mpr ⟨n.le_toInt, n.toInt_lt.le⟩)
  exact (value_normalize n.toInt 0 .positive hsmall).2.trans hself

end TypeFour.Binary64
