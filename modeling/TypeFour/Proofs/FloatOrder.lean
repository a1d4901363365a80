import Mathlib.Data.Prod.Lex
import TypeFour.Binary64.Whole

/-!
# `TypeFour.Proofs.FloatOrder` — floats in order

Floats are compared by the class they belong to, then by exponent and mantissa. All of them but not-a-number
have a place in a linear order (`Binary64.place`), and the comparisons of floats are the comparisons of their
places. Not-a-number has no place: every comparison with it is false. So a float that is neither less than
another nor greater need not be equal to it, but it is if both are numbers.

## Contents
- `Binary64.place`, `compare_eq_place` — the place of an unpacked float.
- `Binary64.lt_iff`, `le_iff` — comparisons, by places.
- `Binary64.le_of_not_lt`, `not_lt_of_le`, `not_lt_of_lt_of_le`, `le_refl` — what carries over.
-/

namespace TypeFour.Binary64

open Float.Model (UnpackedFloat)

/-! ## Places -/

/-- The place of a float among all others: negative infinity, negative numbers, the two zeros, positive
numbers, positive infinity. Not-a-number is given the place of zero, and is set apart by every statement. -/
def place : UnpackedFloat → ℤ ×ₗ ℤ ×ₗ ℤ
  | .infinity .negative => toLex (-2, toLex (0, 0))
  | .finite .negative m e _ => toLex (-1, toLex (-e, -m))
  | .zero _ | .notANumber => toLex (0, toLex (0, 0))
  | .finite .positive m e _ => toLex (1, toLex (e, m))
  | .infinity .positive => toLex (2, toLex (0, 0))

theorem compare_toLex (a b c a' b' c' : ℤ) :
    compare (toLex (a, toLex (b, c)) : ℤ ×ₗ ℤ ×ₗ ℤ) (toLex (a', toLex (b', c'))) =
      (compare a a').then ((compare b b').then (compare c c')) := by
  simp [Prod.Lex.compare_def, compareLex, compareOn]

theorem compare_neg (a b : ℤ) : compare (-a) (-b) = (compare a b).swap := by
  rw [← Std.OrientedOrd.eq_swap (a := b)]
  rcases lt_trichotomy a b with h | rfl | h
  · rw [compare_gt_iff_gt.mpr h, compare_gt_iff_gt.mpr (Int.neg_lt_neg h)]
  · simp
  · rw [compare_lt_iff_lt.mpr h, compare_lt_iff_lt.mpr (Int.neg_lt_neg h)]

theorem compare_cast (m n : ℕ) : compare (m : ℤ) n = compare m n := by
  rcases lt_trichotomy m n with h | rfl | h
  · rw [compare_lt_iff_lt.mpr h, compare_lt_iff_lt.mpr (Int.ofNat_lt.mpr h)]
  · simp
  · rw [compare_gt_iff_gt.mpr h, compare_gt_iff_gt.mpr (Int.ofNat_lt.mpr h)]

/-- **Floats that are numbers** compare as their places do. -/
theorem compare_eq_place {x y : UnpackedFloat} (hx : x.isNaN = false) (hy : y.isNaN = false) :
    x.compare y = some (compare (place x) (place y)) := by
  cases x with
  | notANumber => cases hx
  | zero s =>
    cases y with
    | notANumber => cases hy
    | zero t => rfl
    | infinity t => cases t <;> rfl
    | finite t n f hn => cases t <;> rfl
  | infinity s =>
    cases y with
    | notANumber => cases hy
    | zero t => cases s <;> rfl
    | infinity t => cases s <;> cases t <;> rfl
    | finite t n f hn => cases s <;> cases t <;> rfl
  | finite s m e hm =>
    cases y with
    | notANumber => cases hy
    | zero t => cases s <;> rfl
    | infinity t => cases s <;> cases t <;> rfl
    | finite t n f hn =>
      -- two numbers of one sign are compared by exponent and mantissa, the other way round when negative
      cases s with
      | negative =>
        cases t with
        | negative =>
          show some ((compare e f).then (compare m n)).swap =
            some (compare (toLex (-1, toLex (-e, -(m : ℤ))) : ℤ ×ₗ ℤ ×ₗ ℤ) (toLex (-1, toLex (-f, -(n : ℤ)))))
          rw [compare_toLex, compare_neg e, compare_neg m, compare_cast, Ordering.swap_then]
          rfl
        | positive => rfl
      | positive =>
        cases t with
        | negative => rfl
        | positive =>
          show some ((compare e f).then (compare m n)) =
            some (compare (toLex (1, toLex (e, (m : ℤ))) : ℤ ×ₗ ℤ ×ₗ ℤ) (toLex (1, toLex (f, (n : ℤ)))))
          rw [compare_toLex, compare_cast]
          rfl

/-- Not-a-number compares with nothing. -/
theorem compare_eq_none {x y : UnpackedFloat} (h : x.isNaN = true ∨ y.isNaN = true) :
    x.compare y = none := by
  rcases h with h | h
  · cases x <;> first | rfl | cases h
  · cases y with
    | notANumber => cases x <;> rfl
    | _ => cases h

/-! ## Comparisons -/

variable {x y z : Float}

theorem lt_iff : x < y ↔ x.isNaN = false ∧ y.isNaN = false ∧
    place x.toModel.unpack < place y.toModel.unpack := by
  have hdef : x < y ↔ x.toModel.unpack.compare y.toModel.unpack = some .lt :=
    decide_eq_true_iff.trans beq_iff_eq
  rw [hdef]
  by_cases hx : x.isNaN = true
  · rw [compare_eq_none (.inl hx), hx]
    simp
  by_cases hy : y.isNaN = true
  · rw [compare_eq_none (.inr hy), hy]
    simp
  rw [Bool.not_eq_true] at hx hy
  rw [compare_eq_place hx hy, hx, hy]
  simp [compare_lt_iff_lt]

theorem le_iff : x ≤ y ↔ x.isNaN = false ∧ y.isNaN = false ∧
    place x.toModel.unpack ≤ place y.toModel.unpack := by
  have hdef : x ≤ y ↔ (x.toModel.unpack.compare y.toModel.unpack).any (·.isLE) = true :=
    decide_eq_true_iff
  rw [hdef]
  by_cases hx : x.isNaN = true
  · rw [compare_eq_none (.inl hx), hx]
    simp
  by_cases hy : y.isNaN = true
  · rw [compare_eq_none (.inr hy), hy]
    simp
  rw [Bool.not_eq_true] at hx hy
  rw [compare_eq_place hx hy, hx, hy]
  simp [Ordering.isLE_iff_ne_gt, compare_gt_iff_gt]

theorem le_of_not_lt (hx : x.isNaN = false) (hy : y.isNaN = false) (h : ¬x < y) : y ≤ x := by
  refine le_iff.mpr ⟨hy, hx, le_of_not_gt fun hlt => h ?_⟩
  exact lt_iff.mpr ⟨hx, hy, hlt⟩

theorem not_lt_of_le (h : x ≤ y) : ¬y < x :=
  fun hlt => absurd (lt_iff.mp hlt).2.2 (not_lt_of_ge (le_iff.mp h).2.2)

/-- Above the greater of two floats there is nothing that is below the lesser one. -/
theorem not_lt_of_lt_of_le (hxy : x ≤ y) (hyz : y < z) : ¬z < x := by
  intro hzx
  exact absurd ((lt_iff.mp hyz).2.2.trans (lt_iff.mp hzx).2.2) (not_lt_of_ge (le_iff.mp hxy).2.2)

theorem le_refl (h : x.isNaN = false) : x ≤ x :=
  le_iff.mpr ⟨h, h, le_rfl⟩

end TypeFour.Binary64
