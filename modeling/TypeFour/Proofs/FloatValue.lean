import Mathlib.Algebra.Order.Field.Power
import Mathlib.Data.Rat.Floor
import Mathlib.Tactic.Linarith
import Mathlib.Tactic.Ring
import TypeFour.Proofs.FloatRange

/-!
# `TypeFour.Proofs.FloatValue` — the rational number that a float is

A finite float is a rational number: an integer of at most 53 binary digits, times a power of two. It has a form of
its own, in which it is unpacked, and a number in that form is packed as it is. Before rounding there may be more
digits. They are cut off, and two bits remember what was cut off as nothing, or as less than, equal to or more than
one half.

## Contents
- `Binary64.value`, `integerPart` — a float as a rational number, and a number without its fraction.
- `unpack_pack` — floats are packed as they are unpacked; `unpack_pack_of_lt` — too large ones become infinities.
- `Cut` — mantissas with something cut off behind them.
- `Short`, `short_integerPart` — integers of 53 digits with zeros behind, as the integer parts of floats are.
-/

namespace TypeFour.Binary64

open Float.Model (Format UnpackedFloat totalExponent)
open Float.Model.UnpackedFloat

/-! ## Values -/

/-- The rational number that an unpacked float is. Infinities and not-a-number are given zero, and are set apart
by every statement. -/
def rational : UnpackedFloat → ℚ
  | .finite s m e _ => s.apply m * 2 ^ e
  | _ => 0

/-- The rational number that a finite float is. -/
def value (x : Float) : ℚ :=
  rational x.toModel.unpack

/-- A number without its fraction. -/
def integerPart (q : ℚ) : ℤ :=
  if q < 0 then ⌈q⌉ else ⌊q⌋

theorem integerPart_intCast (n : ℤ) : integerPart n = n := by
  unfold integerPart
  split <;> simp

theorem integerPart_of_nonneg {q : ℚ} (h : 0 ≤ q) : integerPart q = ⌊q⌋ :=
  if_neg (not_lt_of_ge h)

theorem integerPart_neg (q : ℚ) : integerPart (-q) = -integerPart q := by
  unfold integerPart
  rcases lt_trichotomy q 0 with h | rfl | h
  · rw [if_neg (by linarith), if_pos h, Int.floor_neg]
  · simp
  · rw [if_pos (by linarith), if_neg (by linarith), Int.ceil_neg]

theorem apply_cast (s : Sign) (m : ℤ) : ((s.apply m : ℤ) : ℚ) = s.apply 1 * m := by
  cases s <;> simp [Sign.apply]

theorem natAbs_apply (s : Sign) (m : ℕ) : (s.apply m).natAbs = m := by
  cases s <;> simp [Sign.apply]

theorem integerPart_apply (s : Sign) (q : ℚ) : integerPart (s.apply 1 * q) = s.apply (integerPart q) := by
  cases s with
  | positive => simp [Sign.apply]
  | negative => simp [Sign.apply, integerPart_neg]

theorem integerPart_natCast_div (m n : ℕ) : integerPart (m / n) = (m / n : ℕ) := by
  rw [integerPart_of_nonneg (by positivity), Rat.floor_natCast_div_natCast, Int.natCast_ediv]

/-! ## Packing -/

theorem unpackSign_packComponents (f : Format) (s : Sign) (exponent : BitVec f.exponentBits)
    (mantissa : BitVec f.mantissaBitsWithoutImplicit) :
    Sign.ofBitVec (unpackSign (packComponents f s exponent mantissa)) = s := by
  have hbit : unpackSign (packComponents f s exponent mantissa) = s.toBitVec := by
    apply BitVec.eq_of_getLsbD_eq
    intro i hi
    have hzero : i = 0 := by omega
    subst hzero
    simp [unpackSign, packComponents, BitVec.getLsbD_append, BitVec.getElem_append]
  rw [hbit]
  cases s <;> rfl

/-- The digit in front of the stored ones. -/
theorem toNat_implicit_append {m : ℕ} (hlow : 2 ^ 52 ≤ m) (hhigh : m < 2 ^ 53) :
    (1#1 ++ BitVec.ofNat 52 m).toNat = m := by
  have hrest : (BitVec.ofNat 52 m).toNat = m % 2 ^ 52 := BitVec.toNat_ofNat _ _
  have hone : (1#1).toNat = 1 := rfl
  rw [BitVec.toNat_append, ← Nat.shiftLeft_add_eq_or_of_lt (BitVec.isLt _), Nat.shiftLeft_eq, hrest, hone]
  omega

/-- **A float with all its 53 digits** and an exponent in range is packed as it is. -/
theorem unpack_pack_finite {s : Sign} {m : ℕ} {e : ℤ} {hm : 0 < m} (hlow : 2 ^ 52 ≤ m) (hhigh : m < 2 ^ 53)
    (he : -1074 ≤ e) (he' : e ≤ 971) : (Float.Model.pack (.finite s m e hm)).unpack = .finite s m e hm := by
  have hbias : (Format.exponentBias .binary64 : ℤ) = 1023 := rfl
  have hlog : m.log2 + 1 = Format.mantissaBits .binary64 := by
    have hle : 52 ≤ m.log2 := (Nat.le_log2 hm.ne').mpr hlow
    have hlt : m.log2 < 53 := (Nat.log2_lt hm.ne').mpr hhigh
    have hbits : Format.mantissaBits .binary64 = 53 := rfl
    omega
  show unpack .binary64 (pack .binary64 (.finite s m e hm)) = _
  unfold pack
  simp only
  generalize hb : (e + (Format.exponentBias .binary64 : ℤ) + ((52 : ℕ) : ℤ)).toNat = biased
  have hfield : (BitVec.ofNat 11 biased).toNat = biased := by
    rw [BitVec.toNat_ofNat, Nat.mod_eq_of_lt (by omega)]
  have hones : BitVec.ofNat 11 biased ≠ -1#11 := by
    intro h
    have hlast : (-1#11).toNat = 2047 := rfl
    rw [h, hlast] at hfield
    omega
  have hzero : BitVec.ofNat 11 biased ≠ 0#11 := by
    intro h
    have hfirst : (0#11).toNat = 0 := rfl
    rw [h, hfirst] at hfield
    omega
  rw [if_neg (show ¬2 ^ 11 ≤ biased + 1 by omega), if_pos hlog]
  unfold unpack
  simp only [unpackExponent_packComponents, unpackMantissa_packComponents]
  rw [if_neg hones, if_neg hzero, UnpackedFloat.finite.injEq]
  refine ⟨unpackSign_packComponents _ s _ _, toNat_implicit_append hlow hhigh, ?_⟩
  rw [hfield]
  omega

/-- A float with fewer than 53 digits is packed as it is if it has the lowest exponent. -/
theorem unpack_pack_short {s : Sign} {m : ℕ} {hm : 0 < m} (hlt : m < 2 ^ 52) :
    (Float.Model.pack (.finite s m (-1074) hm)).unpack = .finite s m (-1074) hm := by
  have hlog : m.log2 + 1 ≠ Format.mantissaBits .binary64 := by
    have hlt : m.log2 < 52 := (Nat.log2_lt hm.ne').mpr hlt
    have hbits : Format.mantissaBits .binary64 = 53 := rfl
    omega
  have hfield : (BitVec.ofNat 52 m).toNat = m := by rw [BitVec.toNat_ofNat, Nat.mod_eq_of_lt hlt]
  have hzero : BitVec.ofNat 52 m ≠ 0#52 := by
    intro h
    rw [h] at hfield
    exact hm.ne hfield
  show unpack .binary64 (pack .binary64 (.finite s m (-1074) hm)) = _
  unfold pack
  simp only
  rw [if_neg (by decide), if_neg hlog]
  unfold unpack
  simp only [unpackExponent_packComponents, unpackMantissa_packComponents]
  rw [if_neg (by decide), if_pos trivial, dif_neg hzero, UnpackedFloat.finite.injEq]
  exact ⟨unpackSign_packComponents _ s _ _, hfield, rfl⟩

/-- **Floats in this form** are packed as they are. -/
theorem unpack_pack {u : UnpackedFloat} (h : Canonical u) : (Float.Model.pack u).unpack = u := by
  cases u with
  | finite s m e hm =>
    obtain ⟨hlt, hlow, hhigh, hdigits⟩ := h
    rcases Nat.lt_or_ge m (2 ^ 52) with hm' | hm'
    · obtain rfl : e = -1074 := by omega
      exact unpack_pack_short hm'
    · exact unpack_pack_finite hm' hlt hlow hhigh
  | zero s => cases s <;> rfl
  | infinity s => cases s <;> rfl
  | notANumber => rfl

/-- Too large an exponent gives an infinity. -/
theorem unpack_pack_of_lt {s : Sign} {m : ℕ} {e : ℤ} {hm : 0 < m} (he : 971 < e) :
    (Float.Model.pack (.finite s m e hm)).unpack = .infinity s := by
  have hbias : (Format.exponentBias .binary64 : Int) = 1023 := rfl
  have hlarge : 2 ^ 11 ≤ (e + (Format.exponentBias .binary64 : Int) + ((52 : ℕ) : ℤ)).toNat + 1 := by omega
  have hpack : pack .binary64 (.finite s m e hm) = packedInfinity .binary64 s := if_pos hlarge
  show unpack .binary64 (pack .binary64 (.finite s m e hm)) = _
  rw [hpack]
  cases s <;> rfl

/-! ## Cutting digits off -/

/-- The mantissa is `x` without its fraction, and the two bits tell the fraction apart from zero and from one
half. -/
def Cut (em : ExtendedMantissa) (x : ℚ) : Prop :=
  match em.accuracy with
  | .exact => x = em.mantissa
  | .inexact .lt => em.mantissa < x ∧ x < em.mantissa + 1 / 2
  | .inexact .eq => x = em.mantissa + 1 / 2
  | .inexact .gt => em.mantissa + 1 / 2 < x ∧ x < em.mantissa + 1

namespace Cut

variable {em : ExtendedMantissa} {x : ℚ}

theorem exact (m : ℕ) : Cut (.ofMantissaAndAccuracy m .exact) m :=
  rfl

/-- A quotient cut off at its integer part. -/
theorem fraction (m : ℕ) {n : ℕ} (hn : 0 < n) :
    Cut (.ofMantissaAndAccuracy (m / n) (accuracyOfFraction (m % n) n)) (m / n : ℚ) := by
  have hpos : (0 : ℚ) < n := by exact_mod_cast hn
  have hdiv : (m : ℚ) = n * (m / n : ℕ) + (m % n : ℕ) := by exact_mod_cast (Nat.div_add_mod m n).symm
  have hlt : ((m % n : ℕ) : ℚ) < n := by exact_mod_cast Nat.mod_lt m hn
  generalize m / n = k at hdiv ⊢
  generalize m % n = r at hdiv hlt ⊢
  unfold accuracyOfFraction
  split
  · next hzero =>
    subst hzero
    show (m / n : ℚ) = k
    rw [hdiv]
    field_simp
    simp
  · next hzero =>
    have hr : (0 : ℚ) < r := by exact_mod_cast Nat.pos_of_ne_zero hzero
    cases hcompare : compare (2 * r) n with
    | lt =>
      have hhalf : (2 * r : ℚ) < n := by exact_mod_cast Nat.compare_eq_lt.mp hcompare
      show (k : ℚ) < m / n ∧ (m / n : ℚ) < k + 1 / 2
      rw [lt_div_iff₀ hpos, div_lt_iff₀ hpos]
      constructor <;> linarith
    | eq =>
      have hhalf : (2 * r : ℚ) = n := by exact_mod_cast Nat.compare_eq_eq.mp hcompare
      show (m / n : ℚ) = k + 1 / 2
      rw [div_eq_iff hpos.ne']
      linarith
    | gt =>
      have hhalf : (n : ℚ) < 2 * r := by exact_mod_cast Nat.compare_eq_gt.mp hcompare
      show (k + 1 / 2 : ℚ) < m / n ∧ (m / n : ℚ) < k + 1
      rw [lt_div_iff₀ hpos, div_lt_iff₀ hpos]
      constructor <;> linarith

/-- One digit less. -/
theorem shiftRightOne (h : Cut em x) : Cut em.shiftRightOne (x / 2) := by
  obtain ⟨m, r, s⟩ := em
  have hdigit : (m : ℚ) = 2 * (m / 2 : ℕ) + (m % 2 : ℕ) := by exact_mod_cast (Nat.div_add_mod m 2).symm
  have hparity : m % 2 = 0 ∨ m % 2 = 1 := Nat.mod_two_eq_zero_or_one m
  -- the last digit becomes the first bit, and the two bits before become the second one
  rcases hparity with hparity | hparity <;> rw [hparity] at hdigit <;> cases r <;> cases s <;>
    simp [Cut, ExtendedMantissa.shiftRightOne, ExtendedMantissa.accuracy, hparity] at h hdigit ⊢ <;>
    first | linarith | (constructor <;> linarith)

theorem shiftRight (h : Cut em x) (k : ℕ) : Cut (em >>> k) (x / 2 ^ k) := by
  induction k with
  | zero =>
    show Cut em (x / 2 ^ 0)
    simpa using h
  | succ k ih =>
    show Cut (em >>> k).shiftRightOne _
    rw [pow_succ, div_mul_eq_div_div]
    exact ih.shiftRightOne

theorem mantissa_le (h : Cut em x) : em.mantissa ≤ x := by
  unfold Cut at h
  split at h <;> linarith

theorem lt_mantissa_add_one (h : Cut em x) : x < em.mantissa + 1 := by
  unfold Cut at h
  split at h <;> linarith

end Cut

/-! ## Integers -/

/-- An integer with at most 53 binary digits and zeros behind them. -/
def Short (n : ℤ) : Prop :=
  ∃ m k : ℕ, m < 2 ^ 53 ∧ n.natAbs = m * 2 ^ k

theorem Short.of_lt {n : ℤ} (h : n.natAbs < 2 ^ 53) : Short n :=
  ⟨n.natAbs, 0, h, by simp⟩

theorem rational_pack_zero (s : Sign) : rational (Float.Model.pack (.zero s)).unpack = 0 := by
  cases s <;> rfl

/-- The integer part of a finite float, by mantissa and exponent. -/
theorem integerPart_rational (s : Sign) (m : ℕ) (e : ℤ) (hm : 0 < m) :
    integerPart (rational (.finite s m e hm)) = s.apply (m <<< e.toNat / 2 ^ (-e).toNat : ℕ) := by
  have hdigits : (m : ℚ) * 2 ^ e = (m <<< e.toNat : ℕ) / (2 ^ (-e).toNat : ℕ) := by
    rw [Nat.shiftLeft_eq]
    push_cast
    rw [← zpow_natCast, ← zpow_natCast, mul_div_assoc, ← zpow_sub₀ two_ne_zero]
    congr 2
    omega
  show integerPart ((s.apply m : ℤ) * 2 ^ e) = _
  rw [apply_cast, mul_assoc, Int.cast_natCast, hdigits, integerPart_apply, integerPart_natCast_div]

theorem value_of_unpack {x : Float} {s : Sign} {m : ℕ} {e : ℤ} (hm : 0 < m)
    (h : x.toModel.unpack = .finite s m e hm) : value x = s.apply m * 2 ^ e := by
  rw [value, h]
  rfl

theorem integerPart_value {x : Float} {s : Sign} {m : ℕ} {e : ℤ} (hm : 0 < m)
    (h : x.toModel.unpack = .finite s m e hm) :
    integerPart (value x) = s.apply (m <<< e.toNat / 2 ^ (-e).toNat : ℕ) := by
  rw [value, h, integerPart_rational]

/-- The integer part of a float has at most 53 digits. -/
theorem short_integerPart (x : Float) : Short (integerPart (value x)) := by
  unfold value
  cases hu : x.toModel.unpack with
  | finite s m e hm =>
    obtain ⟨hbits, -⟩ := bounds_of_unpack hu
    rw [integerPart_rational]
    rcases le_or_gt 0 e with he | he
    · exact ⟨m, e.toNat, hbits, by rw [natAbs_apply, show (-e).toNat = 0 by omega, Nat.shiftLeft_eq]; simp⟩
    · apply Short.of_lt
      rw [natAbs_apply, show e.toNat = 0 by omega, Nat.shiftLeft_zero]
      exact Nat.lt_of_le_of_lt (Nat.div_le_self _ _) hbits
  | _ => exact ⟨0, 0, by norm_num, by simp [rational, integerPart]⟩

end TypeFour.Binary64
