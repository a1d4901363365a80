import TypeFour.Proofs.FloatArithmetic
import TypeFour.Proofs.Operands
import TypeFour.Replay

/-!
# `TypeFour.Proofs.HalfUp` — `round` is exact

`round` takes the floor, and goes one up if the number is at least one half above it. The distance from the floor is
a difference of floats, which is rounded: for a small negative number it is not exact. But it is exact below one
half, where it has no more digits than the number itself; and from one half on it is not rounded to less, as one half
is a float. So the comparison is that of the exact distance. The floor of a number with a fraction is small enough
for the step up to be exact.

## Contents
- `Representable.fract` — the distance from the floor, below one half.
- `half_le_rounded_fract_iff` — the comparison with one half.
- `value_roundHalfUp` — the nearest integer, halves going up.
- `execute_round` — the operator; `execute_round_justBelowHalf` — the number just below one half.
-/

namespace TypeFour

namespace Binary64

/-! ## The distance from the floor -/

/-- A number is at least as far from zero as from its floor, if that distance is below one half. -/
theorem fract_le_abs {q : ℚ} (h : Int.fract q < 1 / 2) : Int.fract q ≤ |q| := by
  have hsum := Int.floor_add_fract q
  rcases le_or_gt 0 ⌊q⌋ with hfloor | hfloor
  · have hcast : (0 : ℚ) ≤ ⌊q⌋ := by exact_mod_cast hfloor
    exact le_trans (by linarith) (le_abs_self q)
  · have hcast : ((⌊q⌋ : ℤ) : ℚ) ≤ -1 := by exact_mod_cast Int.le_sub_one_of_lt hfloor
    exact le_trans (by linarith) (neg_le_abs q)

/-- **Below one half** the distance of a float from its floor is a float. -/
theorem Representable.fract {q : ℚ} (h : Representable q) (hhalf : Int.fract q < 1 / 2) :
    Representable (Int.fract q) := by
  have hle := fract_le_abs hhalf
  obtain ⟨z, e, hz, he, rfl⟩ := h
  rcases le_or_gt 0 e with hinteger | hdigits
  · obtain ⟨n, hn⟩ := exists_intCast_eq z hinteger
    rw [hn, Int.fract_intCast]
    exact .zero
  · -- the distance has its last digit where the number has it
    obtain ⟨k, rfl⟩ : ∃ k : ℕ, e = -(k : ℤ) := ⟨e.natAbs, by omega⟩
    have hunit : (0 : ℚ) < 2 ^ (-(k : ℤ)) := zpow_pos two_pos _
    have hfract : Int.fract ((z : ℚ) * 2 ^ (-(k : ℤ))) =
        (z - ⌊(z : ℚ) * 2 ^ (-(k : ℤ))⌋ * 2 ^ k : ℤ) * 2 ^ (-(k : ℤ)) := by
      rw [← Int.self_sub_floor]
      push_cast
      rw [sub_mul, mul_assoc _ ((2 : ℚ) ^ k), ← zpow_natCast, ← zpow_add₀ two_ne_zero]
      simp
    have hnonneg := Int.fract_nonneg ((z : ℚ) * 2 ^ (-(k : ℤ)))
    rw [hfract] at hle hnonneg ⊢
    refine ⟨_, _, ?_, he, rfl⟩
    rw [← abs_of_nonneg hnonneg, abs_mul, abs_mul, abs_of_pos hunit, mul_le_mul_iff_left₀ hunit] at hle
    have hle' : |z - ⌊(z : ℚ) * 2 ^ (-(k : ℤ))⌋ * 2 ^ k| ≤ |z| := by exact_mod_cast hle
    exact hle'.trans_lt hz

theorem representable_half : Representable (1 / 2) := by
  have hpower : (1 / 2 : ℚ) = 2 ^ (-1 : ℤ) := by norm_num
  rw [hpower]
  exact .two_zpow (by norm_num)

/-- **The comparison with one half** comes out as if the distance had not been rounded. -/
theorem half_le_rounded_fract_iff {q : ℚ} (h : Representable q) :
    1 / 2 ≤ rounded (Int.fract q) ↔ 1 / 2 ≤ Int.fract q := by
  constructor
  · intro hle
    by_contra hlt
    rw [not_le] at hlt
    rw [rounded_eq_self (h.fract hlt)] at hle
    exact absurd hle (not_le.mpr hlt)
  · exact le_rounded representable_half

/-! ## The nearest integer -/

/-- A float with a fraction is less than `2 ^ 52`. -/
theorem Representable.abs_lt_of_fract_ne_zero {q : ℚ} (h : Representable q) (hfract : Int.fract q ≠ 0) :
    |q| < 2 ^ 52 := by
  obtain ⟨z, e, hz, -, rfl⟩ := h
  rcases le_or_gt 0 e with hinteger | hdigits
  · obtain ⟨n, hn⟩ := exists_intCast_eq z hinteger
    exact absurd (by rw [hn, Int.fract_intCast]) hfract
  · rw [← zpow_ofNat]
    exact abs_mul_two_zpow_lt hz (by omega)

/-- The floor of a float with a fraction has a next integer that is a float. -/
theorem Representable.floor_add_one {q : ℚ} (h : Representable q) (hfract : Int.fract q ≠ 0) :
    |(⌊q⌋ + 1 : ℤ)| < 2 ^ 53 := by
  have hlt := abs_lt.mp (h.abs_lt_of_fract_ne_zero hfract)
  have hle := Int.floor_le q
  have hnext := Int.lt_floor_add_one q
  have hlow : (-2 ^ 53 : ℤ) < ⌊q⌋ + 1 := by
    have hcast : (((-2 ^ 53 : ℤ) : ℤ) : ℚ) < ((⌊q⌋ + 1 : ℤ) : ℚ) := by
      push_cast
      linarith
    exact_mod_cast hcast
  have hhigh : ⌊q⌋ + 1 < (2 ^ 53 : ℤ) := by
    have hcast : ((⌊q⌋ + 1 : ℤ) : ℚ) < ((2 ^ 53 : ℤ) : ℚ) := by
      push_cast
      linarith
    exact_mod_cast hcast
  exact abs_lt.mpr ⟨hlow, hhigh⟩

theorem floor_add_half (q : ℚ) : ⌊q + 1 / 2⌋ = if 1 / 2 ≤ Int.fract q then ⌊q⌋ + 1 else ⌊q⌋ := by
  have hsum := Int.floor_add_fract q
  have hnonneg := Int.fract_nonneg q
  have hlt := Int.fract_lt_one q
  split
  · rw [Int.floor_eq_iff]
    push_cast
    constructor <;> linarith
  · rw [Int.floor_eq_iff]
    constructor <;> linarith

theorem value_half : value 0.5 = 1 / 2 := by
  rw [value_of_unpack (s := .positive) (m := 2 ^ 52) (e := -53) (by decide) rfl]
  norm_num [Float.Model.UnpackedFloat.Sign.apply]

theorem value_one : value 1.0 = 1 := by
  rw [value_of_unpack (s := .positive) (m := 2 ^ 52) (e := -52) (by decide) rfl]
  norm_num [Float.Model.UnpackedFloat.Sign.apply]

/-- **The nearest integer**, halves going up. -/
theorem value_roundHalfUp {x : Float} (hx : x.isFinite = true) :
    (roundHalfUp x).isFinite = true ∧ value (roundHalfUp x) = ⌊value x + 1 / 2⌋ := by
  have hrepresentable := representable_value x
  obtain ⟨hfloor, hbelow⟩ := value_floor hx
  -- the distance from the floor, as it is computed
  have hfract : value x - value (floor x) = Int.fract (value x) := by rw [hbelow, Int.self_sub_floor]
  have hsmall : |rounded (value x - value (floor x))| < 2 ^ 1024 := by
    have hone : Representable ((1 : ℤ) : ℚ) := .intCast (by norm_num)
    have hle : |Int.fract (value x)| ≤ (1 : ℤ) := by
      rw [abs_of_nonneg (Int.fract_nonneg _), Int.cast_one]
      exact (Int.fract_lt_one _).le
    have hlt : |((1 : ℤ) : ℚ)| < 2 ^ 1024 := abs_intCast_lt (by norm_num)
    rw [hfract]
    exact (abs_rounded_le hone hle).trans_lt (lt_of_abs_lt hlt)
  obtain ⟨hfinite, hdistance⟩ := value_sub hx hfloor hsmall
  have hcompare : x - floor x ≥ 0.5 ↔ 1 / 2 ≤ Int.fract (value x) := by
    rw [ge_iff_le, le_iff_value rfl hfinite, value_half, hdistance, hfract, half_le_rounded_fract_iff hrepresentable]
  rw [floor_add_half]
  unfold roundHalfUp
  simp only [hcompare]
  split
  · next hhalf =>
    have hnext := hrepresentable.floor_add_one (fun hzero => by rw [hzero] at hhalf; norm_num at hhalf)
    have hsum : value (floor x) + value 1.0 = (⌊value x⌋ + 1 : ℤ) := by
      rw [hbelow, value_one]
      push_cast
      rfl
    have hself : rounded (value (floor x) + value 1.0) = (⌊value x⌋ + 1 : ℤ) := by
      rw [hsum, rounded_eq_self (.intCast hnext)]
    have hlarge : |rounded (value (floor x) + value 1.0)| < 2 ^ 1024 := by
      rw [hself]
      exact abs_intCast_lt (by omega)
    obtain ⟨hup, hvalue⟩ := value_add hfloor rfl hlarge
    exact ⟨hup, hvalue.trans hself⟩
  · exact ⟨hfloor, hbelow⟩

end Binary64

/-! ## The operator -/

open Binary64

theorem Behaviour.unary_of_isFinite {f : Float → Float} {x : Float} (hf : (f x).isFinite = true) (items : List Value)
    (limit : Option Nat) :
    Behaviour.unary f ⟨.number x :: items, limit⟩ = Stack.push (.number (f x)) ⟨items, limit⟩ := by
  show (if (f x).isFinite then Stack.push (.number (f x)) else throw .undefinedResult : Action Unit) ⟨items, limit⟩ = _
  rw [if_pos hf]

/-- **`round` is exact.** On a finite number, with the stack within its limit, it succeeds and leaves the greatest
integer that is at most one half above the number: the nearest integer, a half going up. -/
theorem execute_round (e : Elementary) (again : List Instruction → Stack → Run) (x : Float) (items : List Value)
    (limit : Option Nat) (hroom : Stack.hasRoom ⟨.number x :: items, limit⟩ 0 = true) (hx : x.isFinite = true) :
    ∃ r : Float, r.isFinite = true ∧ value r = ⌊value x + 1 / 2⌋ ∧
      execute e again .round ⟨.number x :: items, limit⟩ = some (.ok () ⟨.number r :: items, limit⟩) := by
  obtain ⟨hfinite, hvalue⟩ := value_roundHalfUp hx
  have hone : Stack.hasRoom ⟨items, limit⟩ 1 = true := Stack.hasRoom_of_le hroom (Nat.le_refl _)
  refine ⟨roundHalfUp x, hfinite, hvalue, ?_⟩
  show some (Behaviour.unary roundHalfUp _) = _
  rw [Behaviour.unary_of_isFinite hfinite, Stack.push_of_hasRoom hone Nat.one_pos]

/-- The number just below one half is rounded to zero, although it comes to one when a half is added to it. -/
theorem execute_round_justBelowHalf :
    (0.49999999999999994 : Float) + 0.5 = 1.0 ∧
      ∃ r : Float, r.isFinite = true ∧ value r = 0 ∧
        execute .machine (replay .machine 0) .round ⟨[.number 0.49999999999999994], some 1⟩ =
          some (.ok () ⟨[.number r], some 1⟩) := by
  obtain ⟨r, hr, hvalue, hround⟩ := execute_round .machine (replay .machine 0) 0.49999999999999994 [] (some 1) rfl rfl
  have hx : value 0.49999999999999994 = (2 ^ 53 - 1) / 2 ^ 54 := by
    rw [value_of_unpack (s := .positive) (m := 2 ^ 53 - 1) (e := -54) (by decide) rfl]
    norm_num [Float.Model.UnpackedFloat.Sign.apply]
  have hzero : ⌊value 0.49999999999999994 + 1 / 2⌋ = 0 := by
    rw [hx, Int.floor_eq_iff]
    norm_num
  rw [hzero, Int.cast_zero] at hvalue
  exact ⟨by decide +kernel, r, hr, hvalue, hround⟩

end TypeFour
