import TypeFour.Proofs.Rounding

/-!
# `TypeFour.Proofs.FloatArithmetic` — floats as rational numbers

Finite floats are in the order of the rational numbers that they are, and to add or subtract two of them is to
compute the sum or the difference exactly and to round once. What is rounded has a place for its last digit, so it is
an integer with a sign there; a difference of nothing is a zero.

## Contents
- `representable_value`, `abs_value_lt` — a float has few enough digits, and is not too large.
- `le_iff_value`, `lt_iff_value` — floats in order, by value.
- `value_sub`, `value_add` — sums and differences are rounded once.
- `roundsTo_mul`, `roundsTo_div`, `value_mul`, `value_div` — products and quotients as well.
- `wholePart_cast`, `value_toWhole`, `value_floor` — floats without their fraction.
-/

namespace TypeFour.Binary64

open Float.Model (Format UnpackedFloat totalExponent)
open Float.Model.UnpackedFloat

/-! ## Values of floats -/

/-- A number without digits behind the point is an integer. -/
theorem exists_intCast_eq (z : ℤ) {e : ℤ} (he : 0 ≤ e) : ∃ n : ℤ, (z : ℚ) * 2 ^ e = n := by
  obtain ⟨k, rfl⟩ := Int.eq_ofNat_of_zero_le he
  refine ⟨z * 2 ^ k, ?_⟩
  push_cast
  rfl

theorem Representable.rational {u : UnpackedFloat} (h : Canonical u) : Representable (rational u) := by
  cases u with
  | finite s m e hm =>
    obtain ⟨hlt, hlow, -, -⟩ := h
    refine ⟨s.apply m, e, ?_, hlow, rfl⟩
    rw [Int.abs_eq_natAbs, natAbs_apply]
    exact_mod_cast hlt
  | _ => exact .zero

theorem representable_value (x : Float) : Representable (value x) :=
  .rational (canonical_unpack x)

/-- No float reaches `2 ^ 1024`. -/
theorem abs_value_lt (x : Float) : |value x| < 2 ^ 1024 := by
  have hform := canonical_unpack x
  unfold value
  cases hu : x.toModel.unpack with
  | finite s m e hm =>
    rw [hu] at hform
    obtain ⟨hlt, -, hhigh, -⟩ := hform
    have hdigits : |s.apply m| < 2 ^ 53 := by
      rw [Int.abs_eq_natAbs, natAbs_apply]
      exact_mod_cast hlt
    rw [← zpow_ofNat]
    exact abs_mul_two_zpow_lt hdigits (by omega)
  | _ => simp [rational]

/-- A sum or a difference that is no greater than some float is not beyond the floats. -/
theorem abs_rounded_lt {q : ℚ} {x : Float} (h : |q| ≤ value x) : |rounded q| < 2 ^ 1024 :=
  (abs_rounded_le (representable_value x) h).trans_lt (lt_of_abs_lt (abs_value_lt x))

/-! ## Order -/

/-- A number with a greater exponent is greater, if it has all its digits. -/
theorem mul_two_zpow_lt {m n : ℕ} {e f : ℤ} (hm : m < 2 ^ 53) (he : -1074 ≤ e) (hn : 2 ^ 52 ≤ n ∨ f = -1074)
    (h : e < f ∨ e = f ∧ m < n) : (m : ℚ) * 2 ^ e < n * 2 ^ f := by
  rcases h with hlt | ⟨rfl, hlt⟩
  · have hm' : (m : ℚ) < 2 ^ 53 := by exact_mod_cast hm
    have hn' : (2 : ℚ) ^ 52 ≤ n := by exact_mod_cast hn.resolve_right (by omega)
    calc (m : ℚ) * 2 ^ e < 2 ^ (52 + f) := mul_two_zpow_lt_of_lt hm' (by omega)
      _ ≤ n * 2 ^ f := two_zpow_le_mul_of_le hn' le_rfl
  · exact mul_lt_mul_of_pos_right (by exact_mod_cast hlt) (zpow_pos two_pos e)

theorem rational_pos {m : ℕ} {e : ℤ} (hm : 0 < m) : 0 < rational (.finite .positive m e hm) := by
  have hcast : (0 : ℚ) < ((m : ℤ) : ℚ) := by exact_mod_cast hm
  exact mul_pos hcast (zpow_pos two_pos e)

theorem rational_negative (m : ℕ) (e : ℤ) (hm : 0 < m) :
    rational (.finite .negative m e hm) = -rational (.finite .positive m e hm) := by
  show ((-(m : ℤ) : ℤ) : ℚ) * 2 ^ e = -(((m : ℤ) : ℚ) * 2 ^ e)
  push_cast
  ring

theorem rational_lt_of_lt {m n : ℕ} {e f : ℤ} {hm : 0 < m} {hn : 0 < n} (hx : Canonical (.finite .positive m e hm))
    (hy : Canonical (.finite .positive n f hn)) (h : e < f ∨ e = f ∧ m < n) :
    rational (.finite .positive m e hm) < rational (.finite .positive n f hn) := by
  obtain ⟨hlt, hlow, -, -⟩ := hx
  obtain ⟨-, -, -, hdigits⟩ := hy
  exact mul_two_zpow_lt hlt hlow hdigits h

/-- A float in a lower place is less. -/
theorem rational_lt_of_place_lt {u w : UnpackedFloat} (hu : Canonical u) (hw : Canonical w)
    (hufinite : u.isFinite = true) (hwfinite : w.isFinite = true) (h : place u < place w) :
    rational u < rational w := by
  rcases isFinite_cases hufinite with ⟨s, rfl⟩ | ⟨s, m, e, hm, rfl⟩ <;>
    rcases isFinite_cases hwfinite with ⟨t, rfl⟩ | ⟨t, n, f, hn, rfl⟩
  · exact absurd h (lt_irrefl _)
  · cases t with
    | positive => exact rational_pos hn
    | negative => exact absurd h (by simp [place, Prod.Lex.toLex_lt_toLex])
  · cases s with
    | positive => exact absurd h (by simp [place, Prod.Lex.toLex_lt_toLex])
    | negative =>
      rw [rational_negative]
      exact neg_neg_of_pos (rational_pos hm)
  · cases s with
    | positive =>
      cases t with
      | positive =>
        simp only [place, Prod.Lex.toLex_lt_toLex] at h
        exact rational_lt_of_lt hu hw (by omega)
      | negative => exact absurd h (by simp [place, Prod.Lex.toLex_lt_toLex])
    | negative =>
      cases t with
      | positive =>
        rw [rational_negative]
        exact (neg_neg_of_pos (rational_pos hm)).trans (rational_pos hn)
      | negative =>
        -- of two negative numbers, the one with the greater magnitude is less
        simp only [place, Prod.Lex.toLex_lt_toLex] at h
        rw [rational_negative, rational_negative]
        exact neg_lt_neg (rational_lt_of_lt (m := n) (n := m) hw hu (by omega))

theorem rational_eq_of_place_eq {u w : UnpackedFloat} (hufinite : u.isFinite = true) (hwfinite : w.isFinite = true)
    (h : place u = place w) : rational u = rational w := by
  rcases isFinite_cases hufinite with ⟨s, rfl⟩ | ⟨s, m, e, hm, rfl⟩ <;>
    rcases isFinite_cases hwfinite with ⟨t, rfl⟩ | ⟨t, n, f, hn, rfl⟩
  · rfl
  · cases t <;> simp [place] at h
  · cases s <;> simp [place] at h
  · cases s <;> cases t <;> simp [place] at h
    all_goals
      obtain ⟨rfl, rfl⟩ := h
      rfl

/-- **Finite floats are in the order of their values.** -/
theorem le_iff_value {x y : Float} (hx : x.isFinite = true) (hy : y.isFinite = true) : x ≤ y ↔ value x ≤ value y := by
  rw [le_iff]
  constructor
  · rintro ⟨-, -, h⟩
    rcases h.lt_or_eq with hlt | heq
    · exact (rational_lt_of_place_lt (canonical_unpack x) (canonical_unpack y) hx hy hlt).le
    · exact (rational_eq_of_place_eq hx hy heq).le
  · intro h
    refine ⟨isNaN_of_isFinite hx, isNaN_of_isFinite hy, ?_⟩
    by_contra hlt
    have hless := rational_lt_of_place_lt (canonical_unpack y) (canonical_unpack x) hy hx (not_le.mp hlt)
    exact absurd h (not_le.mpr hless)

theorem lt_iff_value {x y : Float} (hx : x.isFinite = true) (hy : y.isFinite = true) : x < y ↔ value x < value y := by
  rw [← not_le, ← le_iff_value hy hx]
  exact ⟨fun hlt hle => not_lt_of_le hle hlt, fun hle => by
    by_contra hlt
    exact hle (le_of_not_lt (isNaN_of_isFinite hx) (isNaN_of_isFinite hy) hlt)⟩

/-! ## Sums and differences -/

/-- A mantissa with zeros behind, and an exponent that is lower by as many. -/
theorem apply_shiftLeft (s : Sign) (m : ℕ) {e g : ℤ} (h : g ≤ e) :
    ((s.apply (m <<< (e - g).toNat : ℕ) : ℤ) : ℚ) * 2 ^ g = s.apply m * 2 ^ e := by
  obtain ⟨k, rfl⟩ := Int.le.dest h
  rw [apply_cast s m, apply_cast s (m <<< _ : ℕ), Nat.shiftLeft_eq, show (g + k - g).toNat = k by omega,
    zpow_add₀ two_ne_zero, zpow_natCast]
  push_cast
  ring

theorem neg_apply (s : Sign) (n : ℤ) : (-s).apply n = -s.apply n := by
  cases s with
  | positive => rfl
  | negative => exact (Int.neg_neg n).symm

theorem Canonical.neg {u : UnpackedFloat} (h : Canonical u) : Canonical u.neg := by
  cases u <;> exact h

theorem rational_neg (u : UnpackedFloat) : rational u.neg = -rational u := by
  cases u with
  | finite s m e hm =>
    show (((-s).apply m : ℤ) : ℚ) * 2 ^ e = -((s.apply m : ℤ) * 2 ^ e)
    rw [neg_apply, Int.cast_neg, neg_mul]
  | _ => exact neg_zero.symm

theorem sub_eq_add_neg (u w : UnpackedFloat) : sub .binary64 u w = add .binary64 u w.neg := by
  cases u with
  | finite s m e hm =>
    cases w with
    | finite t n f hn =>
      show UnpackedFloat.normalize _ (s.apply _ - t.apply _) _ _ =
        UnpackedFloat.normalize _ (s.apply _ + (-t).apply _) _ _
      rw [neg_apply, Int.sub_eq_add_neg]
    | _ => rfl
  | _ => cases w <;> rfl

/-- A sum that is not beyond the floats is rounded once. -/
theorem rational_add {u w : UnpackedFloat} (hu : Canonical u) (hw : Canonical w) (hufinite : u.isFinite = true)
    (hwfinite : w.isFinite = true) (h : |rounded (rational u + rational w)| < 2 ^ 1024) :
    (Float.Model.pack (add .binary64 u w)).unpack.isFinite = true ∧
      rational (Float.Model.pack (add .binary64 u w)).unpack = rounded (rational u + rational w) := by
  rcases isFinite_cases hufinite with ⟨s, rfl⟩ | ⟨s, m, e, hm, rfl⟩
  · have hzero : rational (.zero s) = 0 := rfl
    rw [hzero, zero_add, rounded_eq_self (.rational hw)]
    rcases isFinite_cases hwfinite with ⟨t, rfl⟩ | ⟨t, n, f, hn, rfl⟩
    · cases s <;> cases t <;> exact ⟨rfl, rfl⟩
    · have hsum : add .binary64 (.zero s) (.finite t n f hn) = .finite t n f hn := rfl
      rw [hsum, unpack_pack hw]
      exact ⟨rfl, rfl⟩
  rcases isFinite_cases hwfinite with ⟨t, rfl⟩ | ⟨t, n, f, hn, rfl⟩
  · have hzero : rational (.zero t) = 0 := rfl
    have hsum : add .binary64 (.finite s m e hm) (.zero t) = .finite s m e hm := rfl
    rw [hzero, add_zero, rounded_eq_self (.rational hu), hsum, unpack_pack hu]
    exact ⟨rfl, rfl⟩
  · -- both have their last digits at the lower of the two exponents
    have hsum : ((s.apply (m <<< (e - min e f).toNat : ℕ) + t.apply (n <<< (f - min e f).toNat : ℕ) : ℤ) : ℚ) *
        2 ^ min e f = rational (.finite s m e hm) + rational (.finite t n f hn) := by
      rw [Int.cast_add, add_mul, apply_shiftLeft s m (Int.min_le_left e f),
        apply_shiftLeft t n (Int.min_le_right e f)]
      rfl
    rw [← hsum] at h ⊢
    exact value_normalize _ _ .positive h

variable {x y : Float}

/-- **A sum is rounded once**, if it is not beyond the floats. -/
theorem value_add (hx : x.isFinite = true) (hy : y.isFinite = true) (h : |rounded (value x + value y)| < 2 ^ 1024) :
    (x + y).isFinite = true ∧ value (x + y) = rounded (value x + value y) :=
  rational_add (canonical_unpack x) (canonical_unpack y) hx hy h

/-- **A difference is rounded once**, if it is not beyond the floats. -/
theorem value_sub (hx : x.isFinite = true) (hy : y.isFinite = true) (h : |rounded (value x - value y)| < 2 ^ 1024) :
    (x - y).isFinite = true ∧ value (x - y) = rounded (value x - value y) := by
  have hneg : y.toModel.unpack.neg.isFinite = true := by
    rcases isFinite_cases hy with ⟨s, hu⟩ | ⟨s, m, e, hm, hu⟩ <;> rw [hu] <;> rfl
  have hvalue : value x - value y = rational x.toModel.unpack + rational y.toModel.unpack.neg := by
    rw [rational_neg, value, value]
    ring
  rw [hvalue] at h ⊢
  show (Float.Model.pack (sub .binary64 x.toModel.unpack y.toModel.unpack)).unpack.isFinite = true ∧
    rational (Float.Model.pack (sub .binary64 x.toModel.unpack y.toModel.unpack)).unpack = _
  rw [sub_eq_add_neg]
  exact rational_add (canonical_unpack x) (canonical_unpack y).neg hx hneg h

/-! ## Products and quotients -/

theorem unpack_neg (x : Float) : (-x).toModel.unpack = x.toModel.unpack.neg :=
  unpack_pack (canonical_unpack x).neg

/-- A quotient has as many digits as the dividend has more than the divisor, or one more. -/
theorem log2_div_bounds {m n : ℕ} (hn : n ≠ 0) (h : n.log2 < m.log2) :
    m.log2 ≤ (m / n).log2 + n.log2 + 1 ∧ (m / n).log2 + n.log2 ≤ m.log2 := by
  have hm : m ≠ 0 := by
    rintro rfl
    rw [Nat.log2_zero] at h
    omega
  have hge : 2 ^ (m.log2 - n.log2 - 1) ≤ m / n := by
    rw [Nat.le_div_iff_mul_le (Nat.pos_of_ne_zero hn)]
    calc 2 ^ (m.log2 - n.log2 - 1) * n
        ≤ 2 ^ (m.log2 - n.log2 - 1) * 2 ^ (n.log2 + 1) := Nat.mul_le_mul_left _ Nat.lt_log2_self.le
      _ = 2 ^ m.log2 := by rw [← Nat.pow_add]; congr 1; omega
      _ ≤ m := Nat.log2_self_le hm
  have hlt : m / n < 2 ^ (m.log2 - n.log2 + 1) := by
    rw [Nat.div_lt_iff_lt_mul (Nat.pos_of_ne_zero hn)]
    calc m < 2 ^ (m.log2 + 1) := Nat.lt_log2_self
      _ = 2 ^ (m.log2 - n.log2 + 1) * 2 ^ n.log2 := by rw [← Nat.pow_add]; congr 1; omega
      _ ≤ 2 ^ (m.log2 - n.log2 + 1) * n := Nat.mul_le_mul_left _ (Nat.log2_self_le hn)
  have hlow := (Nat.le_log2 (lt_of_lt_of_le (Nat.two_pow_pos _) hge).ne').mpr hge
  have hhigh := log2_le_of_lt hlt
  omega

/-- **A product is rounded once**, if its factors have enough digits. -/
theorem roundsTo_mul {s t : Sign} {m n : ℕ} {e f : ℤ} {hm : 0 < m} {hn : 0 < n}
    (h : e + f ≤ max (totalExponent (m * n) (e + f) - 53) (-1074)) :
    RoundsTo (s * t) (m * 2 ^ e * (n * 2 ^ f))
      (Float.Model.pack (mul .binary64 (.finite s m e hm) (.finite t n f hn))).unpack := by
  have hproduct : (m : ℚ) * 2 ^ e * (n * 2 ^ f) = (m * n : ℕ) * 2 ^ (e + f) := by
    rw [zpow_add₀ two_ne_zero]
    push_cast
    ring
  rw [hproduct]
  exact roundsTo_roundWithAccuracy (s * t) (Cut.exact _) h

/-- **A quotient is rounded once.** The dividend gets as many zeros behind as it needs for 53 digits of the quotient,
or for the last digit that is kept. -/
theorem roundsTo_div {s t : Sign} {m n : ℕ} {e f : ℤ} {hm : 0 < m} {hn : 0 < n} :
    RoundsTo (s / t) (m * 2 ^ e / (n * 2 ^ f))
      (Float.Model.pack (div .binary64 (.finite s m e hm) (.finite t n f hn))).unpack := by
  have htotal : totalExponent m e - totalExponent n f = m.log2 + e - (n.log2 + f) := by
    show (m.log2 : ℤ) + 1 + e - (n.log2 + 1 + f) = _
    omega
  have htarget : Format.targetExponent .binary64 (totalExponent m e - totalExponent n f) =
      max (m.log2 + e - (n.log2 + f) - 53) (-1074) := by
    rw [← htotal]
    rfl
  generalize hg : min (e - f) (max (m.log2 + e - (n.log2 + f) - 53) (-1074)) = g
  generalize hj : (e - f - g).toNat = j
  have hlog : (m <<< j).log2 = m.log2 + j := log2_shiftLeft hm.ne' j
  have hquotient : (m : ℚ) * 2 ^ e / (n * 2 ^ f) = ((m <<< j : ℕ) / n) * 2 ^ g := by
    have hunits : (2 : ℚ) ^ e = 2 ^ j * 2 ^ g * 2 ^ f := by
      rw [← zpow_natCast, ← zpow_add₀ two_ne_zero, ← zpow_add₀ two_ne_zero]
      congr 1
      omega
    have hpos : (0 : ℚ) < n := by exact_mod_cast hn
    rw [hunits, Nat.shiftLeft_eq]
    push_cast
    field_simp
  have hdefinition : div .binary64 (.finite s m e hm) (.finite t n f hn) =
      roundWithAccuracy .binary64 (s / t) ((m <<< j) / n) g (accuracyOfFraction ((m <<< j) % n) n) := by
    show roundWithAccuracy .binary64 (s / t) _ _ _ = _
    rw [htarget, hg, hj]
  rw [hquotient, hdefinition]
  apply roundsTo_roundWithAccuracy (s / t) (Cut.fraction _ hn)
  -- the quotient has 53 digits unless the exponent is at its lower end
  rcases le_or_gt g (-1074) with hlow | hnormal
  · exact le_max_of_le_right hlow
  · have hdigits := (log2_div_bounds (m := m <<< j) hn.ne' (by omega)).1
    have htotal' : totalExponent (m <<< j / n) g = ((m <<< j / n).log2 : ℤ) + 1 + g := rfl
    omega

theorem apply_div (s t : Sign) : (((s / t).apply 1 : ℤ) : ℚ) = s.apply 1 / t.apply 1 := by
  have hsign : ((t.apply 1 : ℤ) : ℚ) ≠ 0 := by cases t <;> simp [Sign.apply]
  have hmul : (s / t).apply 1 * t.apply 1 = s.apply 1 := by cases s <;> cases t <;> rfl
  rw [eq_div_iff hsign, ← Int.cast_mul, hmul]

/-- **A quotient is rounded once**, if the divisor is not zero and the quotient not beyond the floats. -/
theorem value_div (hx : x.isFinite = true) (hy : y.isFinite = true) (hne : value y ≠ 0)
    (h : |rounded (value x / value y)| < 2 ^ 1024) :
    (x / y).isFinite = true ∧ value (x / y) = rounded (value x / value y) := by
  unfold value at hne h ⊢
  show (Float.Model.pack (div .binary64 x.toModel.unpack y.toModel.unpack)).unpack.isFinite = true ∧
    rational (Float.Model.pack (div .binary64 x.toModel.unpack y.toModel.unpack)).unpack = _
  rcases isFinite_cases hy with ⟨t, hu⟩ | ⟨t, n, f, hn, hu⟩ <;> rw [hu] at hne h ⊢
  · exact absurd rfl hne
  rcases isFinite_cases hx with ⟨s, hu⟩ | ⟨s, m, e, hm, hu⟩ <;> rw [hu] at h ⊢
  · have hzero : rational (.zero s) = 0 := rfl
    rw [hzero, zero_div, rounded_zero]
    exact ⟨isFinite_pack_zero (s / t), rational_pack_zero (s / t)⟩
  · have hquotient : rational (.finite s m e hm) / rational (.finite t n f hn) =
        (s / t).apply 1 * ((m : ℚ) * 2 ^ e / (n * 2 ^ f)) := by
      show ((s.apply m : ℤ) : ℚ) * 2 ^ e / ((t.apply n : ℤ) * 2 ^ f) = _
      rw [apply_cast s m, apply_cast t n, apply_div, Int.cast_natCast, Int.cast_natCast]
      field_simp
    rw [hquotient, rounded_apply, abs_mul, abs_apply_one, one_mul] at h
    rw [hquotient, rounded_apply]
    have hround : RoundsTo (s / t) (m * 2 ^ e / (n * 2 ^ f))
        (Float.Model.pack (div .binary64 (.finite s m e hm) (.finite t n f hn))).unpack := roundsTo_div
    exact ⟨hround.isFinite_iff.mpr (abs_lt.mp h).2, hround.rational_eq (abs_lt.mp h).2⟩

theorem apply_mul (s t : Sign) : (((s * t).apply 1 : ℤ) : ℚ) = s.apply 1 * t.apply 1 := by
  have hmul : (s * t).apply 1 = s.apply 1 * t.apply 1 := by cases s <;> cases t <;> rfl
  rw [hmul, Int.cast_mul]

/-- The factors have enough digits: one of them has 53, or both are at the lower end of the exponents. -/
theorem add_le_totalExponent {s t : Sign} {m n : ℕ} {e f : ℤ} {hm : 0 < m} {hn : 0 < n}
    (hx : Canonical (.finite s m e hm)) (hy : Canonical (.finite t n f hn)) :
    e + f ≤ max (totalExponent (m * n) (e + f) - 53) (-1074) := by
  obtain ⟨-, -, -, hdigits⟩ := hx
  obtain ⟨-, -, -, hdigits'⟩ := hy
  have htotal : totalExponent (m * n) (e + f) = ((m * n).log2 : ℤ) + 1 + (e + f) := rfl
  have hlog (h : 2 ^ 52 ≤ m * n) : 52 ≤ (m * n).log2 := (Nat.le_log2 (Nat.mul_pos hm hn).ne').mpr h
  rcases hdigits with hnormal | rfl
  · have hlong := hlog (hnormal.trans (Nat.le_mul_of_pos_right m hn))
    omega
  rcases hdigits' with hnormal | rfl
  · have hlong := hlog (hnormal.trans (Nat.le_mul_of_pos_left n hm))
    omega
  · exact le_max_of_le_right (by norm_num)

/-- **A product is rounded once**, if it is not beyond the floats. -/
theorem value_mul (hx : x.isFinite = true) (hy : y.isFinite = true) (h : |rounded (value x * value y)| < 2 ^ 1024) :
    (x * y).isFinite = true ∧ value (x * y) = rounded (value x * value y) := by
  have hform := canonical_unpack x
  have hform' := canonical_unpack y
  unfold value at h ⊢
  show (Float.Model.pack (mul .binary64 x.toModel.unpack y.toModel.unpack)).unpack.isFinite = true ∧
    rational (Float.Model.pack (mul .binary64 x.toModel.unpack y.toModel.unpack)).unpack = _
  rcases isFinite_cases hx with ⟨s, hu⟩ | ⟨s, m, e, hm, hu⟩ <;>
    rcases isFinite_cases hy with ⟨t, hw⟩ | ⟨t, n, f, hn, hw⟩ <;> rw [hu] at hform h ⊢ <;> rw [hw] at hform' h ⊢
  · rw [show rational (.zero s) = 0 from rfl, zero_mul, rounded_zero]
    exact ⟨isFinite_pack_zero (s * t), rational_pack_zero (s * t)⟩
  · rw [show rational (.zero s) = 0 from rfl, zero_mul, rounded_zero]
    exact ⟨isFinite_pack_zero (s * t), rational_pack_zero (s * t)⟩
  · rw [show rational (.zero t) = 0 from rfl, mul_zero, rounded_zero]
    exact ⟨isFinite_pack_zero (s * t), rational_pack_zero (s * t)⟩
  · have hproduct : rational (.finite s m e hm) * rational (.finite t n f hn) =
        (s * t).apply 1 * ((m : ℚ) * 2 ^ e * (n * 2 ^ f)) := by
      show ((s.apply m : ℤ) : ℚ) * 2 ^ e * ((t.apply n : ℤ) * 2 ^ f) = _
      rw [apply_cast s m, apply_cast t n, apply_mul, Int.cast_natCast, Int.cast_natCast]
      ring
    rw [hproduct, rounded_apply, abs_mul, abs_apply_one, one_mul] at h
    rw [hproduct, rounded_apply]
    have hround : RoundsTo (s * t) (m * 2 ^ e * (n * 2 ^ f))
        (Float.Model.pack (mul .binary64 (.finite s m e hm) (.finite t n f hn))).unpack :=
      roundsTo_mul (add_le_totalExponent hform hform')
    exact ⟨hround.isFinite_iff.mpr (abs_lt.mp h).2, hround.rational_eq (abs_lt.mp h).2⟩

/-! ## Whole numbers -/

theorem wholePart_cast (up : Bool) (m k : ℕ) :
    (wholePart up m k : ℤ) = if up then ⌈(m : ℚ) / 2 ^ k⌉ else ⌊(m : ℚ) / 2 ^ k⌋ := by
  have hpos : (0 : ℚ) < 2 ^ k := pow_pos two_pos k
  have hle : ((m / 2 ^ k * 2 ^ k : ℕ) : ℚ) ≤ m := by exact_mod_cast Nat.div_mul_le_self m (2 ^ k)
  have hlt : (m : ℚ) < ((m / 2 ^ k + 1) * 2 ^ k : ℕ) := by
    exact_mod_cast Nat.lt_mul_of_div_lt (Nat.lt_succ_self _) (Nat.two_pow_pos k)
  unfold wholePart
  rw [Nat.shiftRight_eq_div_pow]
  simp only [Nat.shiftLeft_eq, Bool.and_eq_true, bne_iff_ne, ne_eq]
  generalize m / 2 ^ k = d at hle hlt ⊢
  push_cast at hle hlt
  cases up with
  | false =>
    rw [if_neg (by simp), if_neg Bool.false_ne_true, eq_comm, Int.floor_eq_iff, le_div_iff₀ hpos, div_lt_iff₀ hpos]
    exact ⟨by exact_mod_cast hle, by exact_mod_cast hlt⟩
  | true =>
    rw [if_pos rfl, eq_comm, Int.ceil_eq_iff, lt_div_iff₀ hpos, div_le_iff₀ hpos]
    by_cases heq : d * 2 ^ k = m
    · have hcast : (d * 2 ^ k : ℚ) = m := by exact_mod_cast heq
      rw [if_neg (by simp [heq]), ← hcast]
      push_cast
      constructor <;> linarith
    · have hcast : (d * 2 ^ k : ℚ) < m := lt_of_le_of_ne hle (by exact_mod_cast heq)
      rw [if_pos ⟨rfl, heq⟩]
      push_cast
      constructor <;> linarith

section

variable {x : Float} {s : Sign} {m : ℕ} {e : ℤ} {hm : 0 < m}

/-- A number with digits behind the point loses them. -/
theorem value_toWhole (up : Sign → Bool) (hu : x.toModel.unpack = .finite s m e hm) (he : e < 0) :
    (toWhole up x).isFinite = true ∧ value (toWhole up x) = s.apply (wholePart (up s) m (-e).toNat) := by
  obtain ⟨hlt, -⟩ := bounds_of_unpack hu
  have hwhole : toWhole up x = ofScaled s (wholePart (up s) m (-e).toNat) 0 := by
    unfold toWhole
    rw [hu]
    exact if_neg (Int.not_le.mpr he)
  have hsmall : wholePart (up s) m (-e).toNat < 2 ^ 53 := by
    have hhalf : m / 2 ^ (-e).toNat ≤ m / 2 := by
      apply Nat.div_le_div_left _ Nat.two_pos
      calc 2 = 2 ^ 1 := rfl
        _ ≤ 2 ^ (-e).toNat := Nat.pow_le_pow_right Nat.two_pos (by omega)
    unfold wholePart
    rw [Nat.shiftRight_eq_div_pow]
    simp only
    split <;> omega
  have hrepresentable : Representable (s.apply (wholePart (up s) m (-e).toNat) : ℤ) := by
    apply Representable.intCast
    rw [Int.abs_eq_natAbs, natAbs_apply]
    exact_mod_cast hsmall
  have hrounded : rounded ((s.apply (wholePart (up s) m (-e).toNat) : ℤ) * 2 ^ (0 : ℤ)) =
      (s.apply (wholePart (up s) m (-e).toNat) : ℤ) := by
    rw [zpow_zero, mul_one, rounded_eq_self hrepresentable]
  have hbelow : |rounded ((s.apply (wholePart (up s) m (-e).toNat) : ℤ) * 2 ^ (0 : ℤ))| < 2 ^ 1024 := by
    rw [hrounded]
    refine abs_intCast_lt ?_
    rw [Int.abs_eq_natAbs, natAbs_apply]
    omega
  obtain ⟨hfinite, hvalue⟩ := value_normalize _ 0 s hbelow
  rw [hwhole]
  exact ⟨hfinite, hvalue.trans hrounded⟩

theorem toWhole_eq_self (up : Sign → Bool) (h : ∀ t n f hn, x.toModel.unpack = .finite t n f hn → 0 ≤ f) :
    toWhole up x = x := by
  unfold toWhole
  split
  · next t n f hn hu => exact if_pos (h t n f hn hu)
  · rfl

/-- A float is an integer if it has no digits behind the point. -/
theorem exists_value_eq (hx : x.isFinite = true) (h : ∀ t n f hn, x.toModel.unpack = .finite t n f hn → 0 ≤ f) :
    ∃ n : ℤ, value x = n := by
  unfold value
  rcases isFinite_cases hx with ⟨s, hu⟩ | ⟨s, m, e, hm, hu⟩
  · rw [hu]
    exact ⟨0, Int.cast_zero.symm⟩
  · rw [hu]
    exact exists_intCast_eq (s.apply m) (h s m e hm hu)

/-- **The floor of a float** is exact. -/
theorem value_floor (hx : x.isFinite = true) : (floor x).isFinite = true ∧ value (floor x) = ⌊value x⌋ := by
  by_cases h : ∀ t n f hn, x.toModel.unpack = .finite t n f hn → 0 ≤ f
  · obtain ⟨n, hn⟩ := exists_value_eq hx h
    have hself : floor x = x := toWhole_eq_self _ h
    rw [hself, hn, Int.floor_intCast]
    exact ⟨hx, rfl⟩
  · push Not at h
    obtain ⟨s, m, e, hm, hu, he⟩ := h
    obtain ⟨hfinite, hvalue⟩ := value_toWhole (fun s => s == .negative) hu he
    refine ⟨hfinite, hvalue.trans ?_⟩
    have hfraction : value x = s.apply 1 * ((m : ℚ) / 2 ^ (-e).toNat) := by
      rw [value_of_unpack hm hu, apply_cast s m, ← zpow_natCast, Int.toNat_of_nonneg (by omega), zpow_neg,
        div_inv_eq_mul, Int.cast_natCast, mul_assoc]
    rw [hfraction, wholePart_cast]
    cases s with
    | positive =>
      have hup : (Sign.positive == Sign.negative) = false := rfl
      rw [hup, if_neg Bool.false_ne_true]
      simp [Sign.apply]
    | negative =>
      have hup : (Sign.negative == Sign.negative) = true := rfl
      rw [hup, if_pos rfl]
      simp [Sign.apply, Int.floor_neg]

end

end TypeFour.Binary64
