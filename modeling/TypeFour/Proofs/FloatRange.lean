import Mathlib
import TypeFour.Binary64.Integer
import TypeFour.Proofs.FloatOrder

/-!
# `TypeFour.Proofs.FloatRange` — results that stay in the range of the floats

A magnitude is rounded by shifting its mantissa until 53 bits are left and adding at most one, which can take
the exponent one further. Only an exponent above 971 becomes an infinity. So whatever is below `2 ^ 1023` and
has not too large an exponent to begin with is finite after rounding: 64-bit integers are, and so are square
roots, whose exponent is half of what it was.

## Contents
- `Canonical`, `canonical_unpack` — the form in which floats are unpacked; `isFinite_cases` — the finite ones.
- `isFinite_pack_finite` — the exponents in range.
- `isFinite_roundWithAccuracy`, `isFinite_round` — rounding.
- `isFinite_normalize`, `isFinite_ofInt64` — integers.
- `bounds_of_unpack`, `isNaN_of_isFinite`, `isFinite_sqrt` — finite floats, and their square roots.
-/

namespace TypeFour.Binary64

open Float.Model (Format UnpackedFloat totalExponent)
open Float.Model.UnpackedFloat

/-! ## Packing -/

/-- The form of the floats that are unpacked: they have 53 digits, or fewer of them at the lower end of the
exponents. -/
def Canonical : UnpackedFloat → Prop
  | .finite _ m e _ => m < 2 ^ 53 ∧ -1074 ≤ e ∧ e ≤ 971 ∧ (2 ^ 52 ≤ m ∨ e = -1074)
  | _ => True

theorem canonical_unpack (x : Float) : Canonical x.toModel.unpack := by
  show Canonical (unpack .binary64 x.toModel.toBits.toBitVec)
  generalize x.toModel.toBits.toBitVec = b
  have hmantissa : (@unpackMantissa .binary64 b).toNat < 2 ^ 52 := BitVec.isLt _
  have hexponent : (@unpackExponent .binary64 b).toNat < 2 ^ 11 := BitVec.isLt _
  have hbias : (Format.exponentBias .binary64 : Int) = 1023 := rfl
  unfold unpack
  simp only
  split
  · split <;> trivial
  · next hones =>
    have hlast : (@unpackExponent .binary64 b).toNat ≠ 2047 := fun h => hones (BitVec.eq_of_toNat_eq h)
    split
    · next hzero =>
      split
      · trivial
      · rw [hzero]
        exact ⟨by omega, by decide, by decide, .inr rfl⟩
    · next hzero =>
      have hfirst : (@unpackExponent .binary64 b).toNat ≠ 0 := fun h => hzero (BitVec.eq_of_toNat_eq h)
      have happend : (1#1 ++ @unpackMantissa .binary64 b).toNat = 2 ^ 52 + (@unpackMantissa .binary64 b).toNat := by
        rw [BitVec.toNat_append, ← Nat.shiftLeft_add_eq_or_of_lt (BitVec.isLt _)]
        rfl
      refine ⟨by omega, by omega, by omega, .inl (by omega)⟩

/-- A finite float is a zero, or it has a mantissa and an exponent. -/
theorem isFinite_cases {u : UnpackedFloat} (h : u.isFinite = true) :
    (∃ s, u = .zero s) ∨ ∃ s m e hm, u = .finite s m e hm := by
  cases u with
  | zero s => exact .inl ⟨s, rfl⟩
  | finite s m e hm => exact .inr ⟨s, m, e, hm, rfl⟩
  | infinity s => cases h
  | notANumber => cases h

theorem isFinite_unpack_packComponents (s : Sign) {exponent : BitVec 11} (h : exponent ≠ -1#11)
    (mantissa : BitVec 52) :
    (unpack .binary64 (packComponents .binary64 s exponent mantissa)).isFinite = true := by
  unfold unpack
  simp only [unpackExponent_packComponents, unpackMantissa_packComponents]
  rw [if_neg h]
  split
  · split <;> rfl
  · rfl

/-- An exponent of at most 971 is in range. -/
theorem isFinite_pack_finite {s : Sign} {m : Nat} {e : Int} {hm : 0 < m} (he : e ≤ 971) :
    (Float.Model.pack (.finite s m e hm)).isFinite = true := by
  have hbiased : (e + (Format.exponentBias .binary64 : Int) + ((52 : Nat) : Int)).toNat + 1 < 2 ^ 11 := by
    have hbias : (Format.exponentBias .binary64 : Int) = 1023 := rfl
    omega
  show (unpack .binary64 (pack .binary64 (.finite s m e hm))).isFinite = true
  unfold pack
  simp only
  rw [if_neg (Nat.not_le_of_lt hbiased)]
  split
  · apply isFinite_unpack_packComponents
    intro h
    have hfield := congrArg BitVec.toNat h
    rw [BitVec.toNat_ofNat, Nat.mod_eq_of_lt (Nat.lt_of_succ_lt hbiased)] at hfield
    have hones : (-1#11).toNat = 2047 := rfl
    omega
  · exact isFinite_unpack_packComponents s (by decide) _

theorem isFinite_pack_zero (s : Sign) : (Float.Model.pack (.zero s)).isFinite = true :=
  isFinite_unpack_packComponents s (by decide) _

/-! ## Rounding -/

theorem mantissa_shiftRight (x : ExtendedMantissa) (k : Nat) : (x >>> k).mantissa = x.mantissa / 2 ^ k := by
  induction k with
  | zero => exact (Nat.div_one _).symm
  | succ k ih =>
    show (x >>> k).mantissa / 2 = _
    rw [ih, Nat.div_div_eq_div_mul, ← Nat.pow_succ]

theorem roundedMantissa_le (x : ExtendedMantissa) : x.roundedMantissa ≤ x.mantissa + 1 := by
  obtain ⟨m, r, s⟩ := x
  have hodd : m % 2 < 2 := Nat.mod_lt m Nat.two_pos
  cases r <;> cases s <;>
    simp only [ExtendedMantissa.roundedMantissa, ExtendedMantissa.accuracy, Accuracy.roundToNearestEven] <;>
    omega

theorem mantissa_ofMantissaAndAccuracy (m : Nat) (a : Accuracy) :
    (ExtendedMantissa.ofMantissaAndAccuracy m a).mantissa = m := by
  cases a with
  | exact => rfl
  | inexact o => cases o <;> rfl

theorem exponent_shiftToTargetExponent (m : Nat) (e : Int) (a : Accuracy) :
    (shiftToTargetExponent .binary64 m e a).2 = max e (max (totalExponent m e - 53) (-1074)) := by
  show e + ((max (totalExponent m e - 53) (-1074) - e).toNat : Int) = _
  omega

/-- A mantissa is shifted until it has at most 53 bits. -/
theorem mantissa_shiftToTargetExponent_lt (m : Nat) (e : Int) (a : Accuracy) :
    (shiftToTargetExponent .binary64 m e a).1.mantissa < 2 ^ 53 := by
  show (ExtendedMantissa.ofMantissaAndAccuracy m a >>>
    (max (totalExponent m e - 53) (-1074) - e).toNat).mantissa < 2 ^ 53
  rw [mantissa_shiftRight, mantissa_ofMantissaAndAccuracy, Nat.div_lt_iff_lt_mul (Nat.two_pow_pos _),
    ← Nat.pow_add]
  refine Nat.lt_of_lt_of_le Nat.lt_log2_self (Nat.pow_le_pow_right Nat.two_pos ?_)
  have htotal : totalExponent m e = (m.log2 : Int) + 1 + e := rfl
  omega

theorem log2_le_of_lt {m k : Nat} (h : m < 2 ^ (k + 1)) : m.log2 ≤ k := by
  by_cases hzero : m = 0
  · simp [hzero]
  · exact Nat.le_of_lt_succ ((Nat.log2_lt hzero).mpr h)

theorem log2_shiftLeft_le (m k : Nat) : (m <<< k).log2 ≤ m.log2 + k := by
  apply log2_le_of_lt
  rw [Nat.shiftLeft_eq, Nat.add_right_comm, Nat.pow_add]
  exact Nat.mul_lt_mul_of_pos_right Nat.lt_log2_self (Nat.two_pow_pos k)

/-- **Rounding a magnitude below `2 ^ 1023`** gives no infinity. -/
theorem isFinite_roundWithAccuracy (s : Sign) {m : Nat} {e : Int} (a : Accuracy) (he : e ≤ 970)
    (htotal : totalExponent m e ≤ 1023) :
    (Float.Model.pack (roundWithAccuracy .binary64 s m e a)).isFinite = true := by
  unfold roundWithAccuracy
  have hexp := exponent_shiftToTargetExponent m e a
  have hmant := mantissa_shiftToTargetExponent_lt m e a
  generalize shiftToTargetExponent .binary64 m e a = first at hexp hmant
  obtain ⟨x, e₁⟩ := first
  simp only at hexp hmant ⊢
  -- rounding up can take the mantissa to `2 ^ 53`, and the exponent one up
  have hrounded : x.roundedMantissa ≤ 2 ^ 53 := Nat.le_trans (roundedMantissa_le x) hmant
  have hlog : x.roundedMantissa.log2 ≤ 53 := log2_le_of_lt (Nat.lt_of_le_of_lt hrounded (by decide))
  have hexp₂ := exponent_shiftToTargetExponent x.roundedMantissa e₁ .exact
  have htotal₁ : totalExponent x.roundedMantissa e₁ = (x.roundedMantissa.log2 : Int) + 1 + e₁ := rfl
  generalize shiftToTargetExponent .binary64 x.roundedMantissa e₁ .exact = second at hexp₂
  obtain ⟨y, e₂⟩ := second
  simp only at hexp₂ ⊢
  split
  · exact isFinite_pack_zero s
  · exact isFinite_pack_finite (by omega)

theorem isFinite_round (s : Sign) {m : Nat} {e : Int} (he : e ≤ 970) (htotal : totalExponent m e ≤ 1023) :
    (Float.Model.pack (UnpackedFloat.round .binary64 s m e)).isFinite = true := by
  have hdef (m : Nat) (e : Int) : totalExponent m e = (m.log2 : Int) + 1 + e := rfl
  unfold UnpackedFloat.round decreaseExponent
  -- what the exponent loses by shifting to the left, the mantissa gains
  have hlog := log2_shiftLeft_le m (e - Format.targetExponent .binary64 (totalExponent m e)).toNat
  rw [hdef] at htotal
  apply isFinite_roundWithAccuracy
  · omega
  · rw [hdef]
    omega

/-! ## Integers -/

theorem isFinite_normalize {n : Int} (hn : n.natAbs ≤ 2 ^ 63) (s : Sign) :
    (Float.Model.pack (UnpackedFloat.normalize .binary64 n 0 s)).isFinite = true := by
  have hround (s : Sign) {m : Nat} (hm : m ≤ 2 ^ 63) :
      (Float.Model.pack (UnpackedFloat.round .binary64 s m 0)).isFinite = true := by
    have hlog : m.log2 ≤ 63 := log2_le_of_lt (Nat.lt_of_le_of_lt hm (by decide))
    have htotal : totalExponent m 0 = (m.log2 : Int) + 1 + 0 := rfl
    exact isFinite_round s (by decide) (by omega)
  unfold UnpackedFloat.normalize
  split
  · exact hround _ (by omega)
  · exact isFinite_pack_zero _
  · exact hround _ (by omega)

/-- **A 64-bit integer** is far from the ends of the range. -/
theorem isFinite_ofInt64 (n : Int64) : (ofInt64 n).isFinite = true := by
  have hlt := n.toInt_lt
  have hle := n.le_toInt
  exact isFinite_normalize (by omega) .positive

/-! ## Square roots -/

/-- The mantissa and the exponent of a finite float are bounded. -/
theorem bounds_of_unpack {x : Float} {s : Sign} {m : Nat} {e : Int} {hm : 0 < m}
    (h : x.toModel.unpack = .finite s m e hm) : m < 2 ^ 53 ∧ e ≤ 971 := by
  have hcanonical := canonical_unpack x
  rw [h] at hcanonical
  obtain ⟨hlt, -, hle, -⟩ := hcanonical
  exact ⟨hlt, hle⟩

/-- A root is finite, with half the exponent. -/
theorem isFinite_sqrt_positive {m : Nat} {e : Int} (hm : m < 2 ^ 53) (he : e ≤ 971) :
    (Float.Model.pack (match sqrtCore .binary64 m e with
      | (root, exponent, a) => roundWithAccuracy .binary64 .positive root exponent a)).isFinite = true := by
  unfold sqrtCore
  simp only
  have hlog : m.log2 ≤ 52 := log2_le_of_lt hm
  generalize ht : min (e.ediv 2) (Format.targetExponent .binary64 ((totalExponent m e + 1).ediv 2)) = t
  have hle : t ≤ e.ediv 2 := ht ▸ Int.min_le_left _ _
  have hhalf : e.ediv 2 = e / 2 := rfl
  generalize hk : (e - 2 * t).toNat = k
  have hroot : (m <<< k).sqrt.log2 ≤ (52 + k) / 2 := by
    apply log2_le_of_lt
    rw [Nat.sqrt_lt, ← Nat.pow_add, Nat.shiftLeft_eq]
    calc m * 2 ^ k < 2 ^ 53 * 2 ^ k := Nat.mul_lt_mul_of_pos_right hm (Nat.two_pow_pos k)
      _ = 2 ^ (53 + k) := (Nat.pow_add 2 53 k).symm
      _ ≤ _ := Nat.pow_le_pow_right Nat.two_pos (by omega)
  have hdef : totalExponent (m <<< k).sqrt t = ((m <<< k).sqrt.log2 : Int) + 1 + t := rfl
  apply isFinite_roundWithAccuracy
  · omega
  · omega

/-- A finite float is a number. -/
theorem isNaN_of_isFinite {x : Float} (hx : x.isFinite = true) : x.isNaN = false := by
  show x.toModel.unpack.isNaN = false
  rcases isFinite_cases hx with ⟨s, hu⟩ | ⟨s, m, e, hm, hu⟩ <;> rw [hu] <;> rfl

/-- **The root of a finite float** that is not negative is finite. -/
theorem isFinite_sqrt {x : Float} (hx : x.isFinite = true) (hneg : ¬x < 0) : x.sqrt.isFinite = true := by
  have hnan := isNaN_of_isFinite hx
  show (Float.Model.pack (UnpackedFloat.sqrt .binary64 x.toModel.unpack)).isFinite = true
  rcases isFinite_cases hx with ⟨s, hu⟩ | ⟨s, m, e, hm, hu⟩
  · rw [hu]
    exact isFinite_pack_zero s
  · cases s with
    | negative =>
      refine absurd ?_ hneg
      refine lt_iff.mpr ⟨hnan, rfl, ?_⟩
      rw [hu]
      exact Prod.Lex.toLex_lt_toLex.mpr (.inl (show (-1 : ℤ) < 0 by decide))
    | positive =>
      obtain ⟨hm', he⟩ := bounds_of_unpack hu
      rw [hu]
      exact isFinite_sqrt_positive hm' he

end TypeFour.Binary64
