import TypeFour.Proofs.EverySource
import TypeFour.Proofs.Operands
import TypeFour.Proofs.Rounding

/-!
# `TypeFour.Proofs.Remainder` — what `mod` leaves over

`mod` takes the integer parts of its operands as 64-bit integers and pushes their remainder as a float. Each step
could lose something: an integer part may be no 64-bit integer, and goes to the nearer end of the range; an integer
of more than 53 digits is rounded. The second never happens, as a remainder is a multiple of the last digit of one
operand and no greater than the other allows. Nor does the first, as long as the dividend is inside the range: a
divisor outside of it leaves the dividend over, and so does the end of the range that takes its place.

## Contents
- `toInt64_eq` — the integer part of a finite float, as a 64-bit integer.
- `Short.tmod` — remainders of integers with at most 53 digits.
- `InRange`, `toInt_mod_ofIntClamp` — operands that the range does not change the remainder of.
- `execute_mod` — the remainder is exact; `execute_mod_fractions` — operands with fractions.
- `not_remainder_beyondRange` — dividends at the ends of the range.
-/

namespace TypeFour

namespace Binary64

open Float.Model (UnpackedFloat)
open Float.Model.UnpackedFloat

/-! ## Integer parts as 64-bit integers -/

theorem roundToInt_eq (s : Sign) (m : ℕ) (e : ℤ) :
    roundToInt s m e = s.apply (m <<< e.toNat / 2 ^ (-e).toNat : ℕ) := by
  show s.apply ((ExtendedMantissa.ofMantissaAndAccuracy (m <<< (e - 0).toNat) .exact >>>
    (0 - (e - ((e - 0).toNat : ℤ))).toNat).mantissa : ℤ) = _
  rw [mantissa_shiftRight, mantissa_ofMantissaAndAccuracy, Int.sub_zero,
    show (0 - (e - (e.toNat : ℤ))).toNat = (-e).toNat by omega]

/-- **The integer part of a finite float**, brought into the range of 64-bit integers. -/
theorem toInt64_eq {x : Float} (hx : x.isFinite = true) :
    toInt64 x = Int64.ofIntClamp (integerPart (value x)) := by
  show Int64.ofIntClamp (toInt _ _ x.toModel.unpack) = Int64.ofIntClamp (integerPart (rational x.toModel.unpack))
  rcases isFinite_cases hx with ⟨s, hu⟩ | ⟨s, m, e, hm, hu⟩
  · have hzero : integerPart (rational (.zero s)) = 0 := by simp [rational, integerPart]
    rw [hu, hzero]
    rfl
  · rw [hu, integerPart_rational]
    exact congrArg Int64.ofIntClamp (roundToInt_eq s m e)

theorem toInt_ofIntClamp_of_lt {n : ℤ} (hlow : -2 ^ 63 ≤ n) (hhigh : n < 2 ^ 63) :
    (Int64.ofIntClamp n).toInt = n :=
  Int64.toInt_ofIntClamp hlow (Int.le_sub_one_of_lt hhigh)

theorem toInt_ofIntClamp_of_le {n : ℤ} (h : 2 ^ 63 ≤ n) : (Int64.ofIntClamp n).toInt = 2 ^ 63 - 1 := by
  have hmin : Int64.minValue.toInt = -2 ^ 63 := rfl
  have hmax : Int64.maxValue.toInt = 2 ^ 63 - 1 := rfl
  unfold Int64.ofIntClamp
  rw [dif_pos (by omega), dif_neg (by omega), hmax]

theorem toInt_ofIntClamp_of_lt_min {n : ℤ} (h : n < -2 ^ 63) : (Int64.ofIntClamp n).toInt = -2 ^ 63 := by
  have hmin : Int64.minValue.toInt = -2 ^ 63 := rfl
  unfold Int64.ofIntClamp
  rw [dif_neg (by omega), hmin]

/-! ## Remainders -/

theorem tmod_of_natAbs_lt {a b : ℤ} (h : a.natAbs < b.natAbs) : a.tmod b = a := by
  have hquotient : a.tdiv b = 0 := by
    rw [← Int.natAbs_eq_zero, Int.natAbs_tdiv]
    exact Nat.div_eq_of_lt h
  rw [Int.tmod_def, hquotient, Int.mul_zero, Int.sub_zero]

/-- **A remainder** has no more digits than the operands: it is a multiple of the last digit that the two have in
common, less than the divisor and not greater than the dividend. -/
theorem Short.tmod {a b : ℤ} (ha : Short a) (hb : Short b) (hne : b ≠ 0) : Short (a.tmod b) := by
  obtain ⟨m, j, hm, hj⟩ := ha
  obtain ⟨n, k, hn, hk⟩ := hb
  unfold Short
  rw [Int.natAbs_tmod, hj, hk]
  rcases Nat.le_total j k with hle | hle
  · obtain ⟨d, rfl⟩ := Nat.exists_eq_add_of_le hle
    refine ⟨m % (n * 2 ^ d), j, Nat.lt_of_le_of_lt (Nat.mod_le _ _) hm, ?_⟩
    rw [Nat.pow_add, Nat.mul_comm (2 ^ j), ← Nat.mul_assoc, Nat.mul_mod_mul_right]
  · obtain ⟨d, rfl⟩ := Nat.exists_eq_add_of_le hle
    have hpos : 0 < n := by
      apply Nat.pos_of_ne_zero
      rintro rfl
      rw [Nat.zero_mul] at hk
      exact hne (Int.natAbs_eq_zero.mp hk)
    refine ⟨m * 2 ^ d % n, k, Nat.lt_trans (Nat.mod_lt _ hpos) hn, ?_⟩
    rw [Nat.pow_add, Nat.mul_comm (2 ^ k), ← Nat.mul_assoc, Nat.mul_mod_mul_right]

/-- Operands that the range of 64-bit integers does not change the remainder of: the dividend is inside the range,
or it is the least integer, and the divisor is in the range and not minus one. -/
def InRange (a b : ℤ) : Prop :=
  |a| < 2 ^ 63 ∨ a = -2 ^ 63 ∧ -2 ^ 63 ≤ b ∧ b < 2 ^ 63 ∧ b ≠ -1

/-- An integer of at most 53 digits is not the greatest 64-bit integer, which has 63. -/
theorem Short.natAbs_ne {a : ℤ} (h : Short a) : a.natAbs ≠ 2 ^ 63 - 1 := by
  obtain ⟨m, k, hm, habs⟩ := h
  rw [habs]
  cases k with
  | zero => omega
  | succ k =>
    rw [Nat.pow_succ, ← Nat.mul_assoc]
    omega

/-- **The range changes no remainder.** -/
theorem toInt_mod_ofIntClamp {a b : ℤ} (ha : Short a) (h : InRange a b) :
    (Int64.ofIntClamp a % Int64.ofIntClamp b).toInt = a.tmod b := by
  have hlast := ha.natAbs_ne
  rw [Int64.toInt_mod]
  rcases h with h | ⟨rfl, hlow, hhigh, -⟩
  · rw [abs_lt] at h
    rw [toInt_ofIntClamp_of_lt (by omega) h.2]
    -- a divisor outside the range is greater than the dividend, and so is what takes its place
    rcases lt_or_ge b (-2 ^ 63) with hb | hlow
    · rw [toInt_ofIntClamp_of_lt_min hb, tmod_of_natAbs_lt (by omega), tmod_of_natAbs_lt (by omega)]
    rcases lt_or_ge b (2 ^ 63) with hb | hb
    · rw [toInt_ofIntClamp_of_lt hlow hb]
    · rw [toInt_ofIntClamp_of_le hb, tmod_of_natAbs_lt (by omega), tmod_of_natAbs_lt (by omega)]
  · rw [toInt_ofIntClamp_of_lt (by omega) (by omega), toInt_ofIntClamp_of_lt hlow hhigh]

/-- Only zero is brought to zero. -/
theorem ofIntClamp_eq_zero_iff {n : ℤ} : Int64.ofIntClamp n = 0 ↔ n = 0 := by
  have hzero : (0 : Int64).toInt = 0 := rfl
  rw [← Int64.toInt_inj, hzero]
  rcases lt_or_ge n (-2 ^ 63) with hn | hlow
  · rw [toInt_ofIntClamp_of_lt_min hn]
    omega
  rcases lt_or_ge n (2 ^ 63) with hn | hn
  · rw [toInt_ofIntClamp_of_lt hlow hn]
  · rw [toInt_ofIntClamp_of_le hn]
    omega

/-- In range there is no overflow: the quotient by minus one is a 64-bit integer. -/
theorem not_overflow {a b : ℤ} (h : InRange a b) :
    ¬(Int64.ofIntClamp a = Int64.minValue ∧ Int64.ofIntClamp b = -1) := by
  have hmin : Int64.minValue.toInt = -2 ^ 63 := rfl
  have hone : (-1 : Int64).toInt = -1 := rfl
  rw [← Int64.toInt_inj, ← Int64.toInt_inj, hmin, hone]
  rintro ⟨ha, hb⟩
  rcases h with h | ⟨rfl, hlow, hhigh, hne⟩
  · rw [abs_lt] at h
    rw [toInt_ofIntClamp_of_lt (by omega) h.2] at ha
    omega
  · rw [toInt_ofIntClamp_of_lt hlow hhigh] at hb
    exact hne hb

end Binary64

/-! ## The operator -/

open Binary64

variable {items : List Value} {limit : Option Nat}

/-- There is room for a result where two operands have been. -/
theorem Stack.push_operand {u w : Value} (h : Stack.hasRoom ⟨u :: w :: items, limit⟩ 0 = true) (v : Value) :
    Stack.push v ⟨items, limit⟩ = .ok () ⟨v :: items, limit⟩ :=
  Stack.push_of_hasRoom (Stack.hasRoom_of_le h (Nat.le_succ _)) Nat.one_pos v

theorem Behaviour.modulo_of_undefined {a b : Float}
    (h : toInt64 b = 0 ∨ (toInt64 a = Int64.minValue ∧ toInt64 b = -1)) :
    Behaviour.modulo ⟨.number b :: .number a :: items, limit⟩ = .error .undefinedResult ⟨items, limit⟩ := by
  show (if toInt64 b = 0 ∨ (toInt64 a = Int64.minValue ∧ toInt64 b = -1) then
    (do throw .undefinedResult; Stack.push _) else Stack.push _ : Action Unit) ⟨items, limit⟩ = _
  rw [if_pos h]
  rfl

theorem Behaviour.modulo_of_defined {a b : Float}
    (h : ¬(toInt64 b = 0 ∨ (toInt64 a = Int64.minValue ∧ toInt64 b = -1))) :
    Behaviour.modulo ⟨.number b :: .number a :: items, limit⟩ =
      Stack.push (.number (ofInt64 (toInt64 a % toInt64 b))) ⟨items, limit⟩ := by
  show (if toInt64 b = 0 ∨ (toInt64 a = Int64.minValue ∧ toInt64 b = -1) then
    (do throw .undefinedResult; Stack.push _) else Stack.push _ : Action Unit) ⟨items, limit⟩ = _
  rw [if_neg h]

/-- On the numbers `a` and `b`, the upper one, above some values, `mod` puts one number in the place of the two:
the integer part of `a` less that of `b` times the integer part of the quotient of the two integers. -/
def LeavesRemainder (e : Elementary) (again : List Instruction → Stack → Run) (a b : Float) (items : List Value)
    (limit : Option Nat) : Prop :=
  ∃ r : Float, r.isFinite = true ∧
    value r = (integerPart (value a) -
      integerPart (value b) * (integerPart (value a)).tdiv (integerPart (value b)) : ℤ) ∧
    execute e again .mod ⟨.number b :: .number a :: items, limit⟩ = some (.ok () ⟨.number r :: items, limit⟩)

/-- **The remainder is exact.** For two finite numbers on a stack within its limit, `mod` fails with
`undefinedResult` when the integer part of the upper one is zero. Otherwise, and in range, it succeeds, and what it
leaves is the exact remainder. -/
theorem execute_mod (e : Elementary) (again : List Instruction → Stack → Run) (a b : Float) (items : List Value)
    (limit : Option Nat) (hroom : Stack.hasRoom ⟨.number b :: .number a :: items, limit⟩ 0 = true)
    (ha : a.isFinite = true) (hb : b.isFinite = true) :
    (integerPart (value b) = 0 → execute e again .mod ⟨.number b :: .number a :: items, limit⟩ =
      some (.error .undefinedResult ⟨items, limit⟩)) ∧
    (integerPart (value b) ≠ 0 → InRange (integerPart (value a)) (integerPart (value b)) →
      LeavesRemainder e again a b items limit) := by
  constructor
  · intro hzero
    show some (Behaviour.modulo _) = _
    rw [Behaviour.modulo_of_undefined (.inl (by rw [toInt64_eq hb, hzero]; rfl))]
  · intro hne hrange
    have hexact := toInt_mod_ofIntClamp (short_integerPart a) hrange
    refine ⟨ofInt64 (toInt64 a % toInt64 b), isFinite_ofInt64 _, ?_, ?_⟩
    · have hshort := (short_integerPart a).tmod (short_integerPart b) hne
      rw [← hexact] at hshort
      rw [toInt64_eq ha, toInt64_eq hb, value_ofInt64 hshort, hexact, Int.tmod_def]
    · show some (Behaviour.modulo _) = _
      rw [Behaviour.modulo_of_defined, Stack.push_operand hroom]
      rw [toInt64_eq ha, toInt64_eq hb, ofIntClamp_eq_zero_iff]
      rintro (hzero | hoverflow)
      · exact hne hzero
      · exact not_overflow hrange hoverflow

/-- The remainder of `-7.75` by `2.5` is that of `-7` by `2`. -/
theorem execute_mod_fractions :
    integerPart (value (-7.75)) = -7 ∧ integerPart (value 2.5) = 2 ∧
      LeavesRemainder .machine (replay .machine 0) (-7.75) 2.5 [] (some 100) := by
  have ha : integerPart (value (-7.75)) = -7 :=
    integerPart_value (s := .negative) (m := 31 <<< 48) (e := -50) (by decide) rfl
  have hb : integerPart (value 2.5) = 2 :=
    integerPart_value (s := .positive) (m := 5 <<< 50) (e := -51) (by decide) rfl
  obtain ⟨-, hremainder⟩ := execute_mod .machine (replay .machine 0) (-7.75) 2.5 [] (some 100) rfl rfl rfl
  rw [ha, hb] at hremainder
  exact ⟨ha, hb, hremainder (by decide) (.inl (by decide))⟩

/-- Beyond the range it is the remainder of something else, or none: `2 ^ 63` by ten leaves seven over, which
`2 ^ 63 - 1` does, and `-2 ^ 63` by minus one fails. -/
theorem not_remainder_beyondRange :
    ¬LeavesRemainder .machine (replay .machine 0) 9223372036854775808 10 [] (some 100) ∧
      integerPart (value (-1)) = -1 ∧
      execute .machine (replay .machine 0) .mod ⟨[.number (-1), .number (-9223372036854775808)], some 100⟩ =
        some (.error .undefinedResult ⟨[], some 100⟩) := by
  have ha : integerPart (value 9223372036854775808) = 2 ^ 63 :=
    integerPart_value (s := .positive) (m := 2 ^ 52) (e := 11) (by decide) rfl
  have hb : integerPart (value 10) = 10 :=
    integerPart_value (s := .positive) (m := 5 <<< 50) (e := -49) (by decide) rfl
  have hseven : integerPart (value 7) = 7 :=
    integerPart_value (s := .positive) (m := 7 <<< 50) (e := -50) (by decide) rfl
  have hone : integerPart (value (-1)) = -1 :=
    integerPart_value (s := .negative) (m := 2 ^ 52) (e := -52) (by decide) rfl
  have hrun : execute .machine (replay .machine 0) .mod ⟨[.number 10, .number 9223372036854775808], some 100⟩ =
      some (.ok () ⟨[.number 7], some 100⟩) := rfl
  refine ⟨?_, hone, rfl⟩
  rintro ⟨r, -, hvalue, hleft⟩
  rw [hrun] at hleft
  cases hleft
  have height := congrArg integerPart hvalue
  rw [integerPart_intCast, ha, hb, hseven] at height
  exact absurd height (by decide)

end TypeFour
