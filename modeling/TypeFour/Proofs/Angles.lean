import TypeFour.Proofs.FloatRemainder
import TypeFour.Proofs.Remainder
import TypeFour.Replay

/-!
# `TypeFour.Proofs.Angles` — `atan` stays within a turn

The angle of two numbers comes in radians, of either sign, and is turned into degrees. Then whole turns are taken
away. That is exact for an angle that is not negative. To a negative one a turn is added in the end, and the sum is
rounded: of a tiny negative angle it is a full turn, which is taken for no turn. So what is pushed is never negative
and always less than a turn, whatever the angle is; of the angle itself only its being finite is asked.

## Contents
- `withoutTurns`, `value_withinTurn` — an angle without its whole turns, rounded once.
- `Elementary.AnglesFinite` — what is asked of the angles; `anglesFinite_of_abs_le` — angles of at most half a turn.
- `execute_atan` — the operator; `execute_atan_justBelowAxis` — an angle that comes to a full turn.
-/

namespace TypeFour

open Binary64

/-! ## Whole turns -/

/-- An angle in degrees without its whole turns. -/
def withoutTurns (q : ℚ) : ℚ :=
  Int.fract (q / 360) * 360

/-- An angle in degrees without its whole turns, as a float: rounded once, and none at all if that makes it a
whole turn. -/
def turnRounded (q : ℚ) : ℚ :=
  if rounded (withoutTurns q) < 360 then rounded (withoutTurns q) else 0

theorem withoutTurns_bounds (q : ℚ) : 0 ≤ withoutTurns q ∧ withoutTurns q < 360 :=
  Int.fract_div_mul_self_mem_Ico 360 q (by norm_num)

theorem turnRounded_bounds (q : ℚ) : 0 ≤ turnRounded q ∧ turnRounded q < 360 := by
  unfold turnRounded
  split
  · next hlt => exact ⟨le_rounded .zero (withoutTurns_bounds q).1, hlt⟩
  · norm_num

theorem value_turn : value 360 = 360 := by
  rw [value_of_unpack (s := .positive) (m := 45 * 2 ^ 47) (e := -44) (by decide) rfl]
  norm_num [Float.Model.UnpackedFloat.Sign.apply]

/-- **Whole turns are taken away.** -/
theorem value_withinTurn {x : Float} (hx : x.isFinite = true) :
    (Behaviour.withinTurn x).isFinite = true ∧ value (Behaviour.withinTurn x) = turnRounded (value x) := by
  have hturn : 0 < value 360 := by
    rw [value_turn]
    norm_num
  obtain ⟨hfinite, hvalue⟩ := value_positiveRemainder hx rfl hturn
  rw [value_turn] at hvalue
  have hcompare : positiveRemainder x 360 ≥ 360 ↔ ¬rounded (withoutTurns (value x)) < 360 := by
    rw [ge_iff_le, le_iff_value rfl hfinite, value_turn, hvalue, not_lt]
    rfl
  unfold Behaviour.withinTurn turnRounded
  simp only [hcompare]
  by_cases hlt : rounded (withoutTurns (value x)) < 360
  · rw [if_neg (not_not_intro hlt), if_pos hlt]
    exact ⟨hfinite, hvalue⟩
  · rw [if_pos hlt, if_neg hlt]
    exact ⟨rfl, rfl⟩

/-! ## Angles in degrees -/

/-- What is asked of the angles: that of two numbers, infinities among them, is finite in degrees. -/
def Elementary.AnglesFinite (e : Elementary) : Prop :=
  ∀ y x : Float, y.isNaN = false → x.isNaN = false → (Behaviour.degrees (e.atan2 y x)).isFinite = true

/-- There are fewer than 58 degrees to the radian. -/
theorem abs_degree_lt : |value (Float.ofBits 0x404ca5dc1a63c1f8)| < 58 := by
  rw [value_of_unpack (s := .positive) (m := 8063664102031864) (e := -47) (by decide) rfl]
  norm_num [Float.Model.UnpackedFloat.Sign.apply]

/-- **Angles of half a turn** or a little more, to either side, are finite in degrees. -/
theorem Elementary.anglesFinite_of_abs_le {e : Elementary}
    (h : ∀ y x : Float, y.isNaN = false → x.isNaN = false →
      (e.atan2 y x).isFinite = true ∧ |value (e.atan2 y x)| ≤ 4) : e.AnglesFinite := by
  intro y x hy hx
  obtain ⟨hfinite, hle⟩ := h y x hy hx
  have hdegrees : |value (e.atan2 y x) * value (Float.ofBits 0x404ca5dc1a63c1f8)| ≤ value 360 := by
    rw [abs_mul, value_turn]
    calc _ ≤ 4 * (58 : ℚ) := mul_le_mul hle abs_degree_lt.le (abs_nonneg _) (by norm_num)
      _ ≤ 360 := by norm_num
  exact (value_mul hfinite rfl (abs_rounded_lt hdegrees)).1

/-! ## The operator -/

variable {items : List Value} {limit : Option Nat} {num den : Float} {atan2 : Float → Float → Float}

theorem Behaviour.arctangent_of_origin (h : num == 0 ∧ den == 0) :
    Behaviour.arctangent atan2 ⟨.number den :: .number num :: items, limit⟩ =
      .error .undefinedResult ⟨items, limit⟩ := by
  show (if (num == 0 && den == 0) = true then (do throw .undefinedResult; Behaviour.pushResult _) else
    Behaviour.pushResult _ : Action Unit) ⟨items, limit⟩ = _
  rw [if_pos (Bool.and_eq_true_iff.mpr h)]
  rfl

theorem Behaviour.arctangent_of_finite (h : ¬(num == 0 ∧ den == 0))
    (hfinite : (Behaviour.withinTurn (Behaviour.degrees (atan2 num den))).isFinite = true) :
    Behaviour.arctangent atan2 ⟨.number den :: .number num :: items, limit⟩ =
      Stack.push (.number (Behaviour.withinTurn (Behaviour.degrees (atan2 num den)))) ⟨items, limit⟩ := by
  show (if (num == 0 && den == 0) = true then (do throw .undefinedResult; Behaviour.pushResult _) else
    Behaviour.pushResult (Behaviour.withinTurn (Behaviour.degrees (atan2 num den))) : Action Unit) ⟨items, limit⟩ = _
  rw [if_neg (fun hzero => h (Bool.and_eq_true_iff.mp hzero)), Behaviour.pushResult, if_pos hfinite]

/-- **`atan` stays within a turn.** For two numbers, infinities among them, on a stack within its limit: if both are
zero, of either sign, it fails with `undefinedResult`. Otherwise it succeeds, and what it leaves is at least zero and
less than 360: their angle in degrees without its whole turns, rounded once, and zero if that is a full turn. -/
theorem execute_atan (e : Elementary) (he : e.AnglesFinite) (again : List Instruction → Stack → Run) (num den : Float)
    (items : List Value) (limit : Option Nat)
    (hroom : Stack.hasRoom ⟨.number den :: .number num :: items, limit⟩ 0 = true) (hnum : num.isNaN = false)
    (hden : den.isNaN = false) :
    (num == 0 ∧ den == 0 → execute e again .atan ⟨.number den :: .number num :: items, limit⟩ =
      some (.error .undefinedResult ⟨items, limit⟩)) ∧
    (¬(num == 0 ∧ den == 0) → ∃ r : Float, r.isFinite = true ∧ 0 ≤ value r ∧ value r < 360 ∧
      value r = turnRounded (value (Behaviour.degrees (e.atan2 num den))) ∧
      execute e again .atan ⟨.number den :: .number num :: items, limit⟩ =
        some (.ok () ⟨.number r :: items, limit⟩)) := by
  constructor
  · intro horigin
    exact congrArg some (Behaviour.arctangent_of_origin horigin)
  · intro hpoint
    obtain ⟨hfinite, hvalue⟩ := value_withinTurn (he num den hnum hden)
    obtain ⟨hlow, hhigh⟩ := turnRounded_bounds (value (Behaviour.degrees (e.atan2 num den)))
    rw [← hvalue] at hlow hhigh
    refine ⟨_, hfinite, hlow, hhigh, hvalue, ?_⟩
    show some (Behaviour.arctangent e.atan2 _) = _
    rw [Behaviour.arctangent_of_finite hpoint hfinite, Stack.push_operand hroom]

/-- The negative number nearest to zero. -/
def leastNegative : Float :=
  .ofBits 0x8000000000000001

/-- One angle that is known: next to the axis it is as small as its tangent. -/
def justBelowAxis : Elementary :=
  { Elementary.machine with atan2 := fun y x => if y == leastNegative && x == 1 then leastNegative else 0 }

theorem anglesFinite_justBelowAxis : justBelowAxis.AnglesFinite := by
  apply Elementary.anglesFinite_of_abs_le
  intro y x _ _
  show (if y == leastNegative && x == 1 then leastNegative else 0).isFinite = true ∧
    |value (if y == leastNegative && x == 1 then leastNegative else 0)| ≤ 4
  split
  · have hvalue : |value leastNegative| ≤ 1 := by
      rw [value_of_unpack (s := .negative) (m := 1) (e := -1074) (by decide) rfl, abs_mul, Nat.cast_one, abs_apply_one,
        one_mul, abs_of_pos (zpow_pos two_pos _)]
      exact zpow_le_one_of_nonpos₀ one_le_two (by norm_num)
    exact ⟨rfl, hvalue.trans (by norm_num)⟩
  · have hvalue : value 0 = 0 := rfl
    rw [hvalue, abs_zero]
    exact ⟨rfl, by norm_num⟩

/-- The angle just below the axis comes to a full turn when a turn is added, and zero is pushed. -/
theorem execute_atan_justBelowAxis :
    justBelowAxis.AnglesFinite ∧
      positiveRemainder (Behaviour.degrees (justBelowAxis.atan2 leastNegative 1)) 360 = 360 ∧
      ∃ r : Float, r.isFinite = true ∧ value r = 0 ∧
        execute justBelowAxis (replay justBelowAxis 0) .atan ⟨[.number 1, .number leastNegative], some 2⟩ =
          some (.ok () ⟨[.number r], some 2⟩) := by
  obtain ⟨-, hpoint⟩ := execute_atan justBelowAxis anglesFinite_justBelowAxis (replay justBelowAxis 0) leastNegative 1
    [] (some 2) rfl rfl rfl
  obtain ⟨r, hfinite, -, -, hvalue, hexecute⟩ := hpoint (by decide +kernel)
  have hzero : Behaviour.withinTurn (Behaviour.degrees (justBelowAxis.atan2 leastNegative 1)) = 0 := by decide +kernel
  rw [← (value_withinTurn (anglesFinite_justBelowAxis _ _ rfl rfl)).2, hzero] at hvalue
  exact ⟨anglesFinite_justBelowAxis, by decide +kernel, r, hfinite, hvalue, hexecute⟩

end TypeFour
