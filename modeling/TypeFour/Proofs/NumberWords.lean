import TypeFour.Proofs.DecimalRounding
import TypeFour.Proofs.Depth
import TypeFour.Proofs.Numerals

/-!
# `TypeFour.Proofs.NumberWords` — words that are numbers

A word whose first byte is below `A` has to be a number. A plus sign in front of it is taken off, unless a minus sign
comes next, and what is left is read as a numeral, which may have a sign of its own. So such a word is a number if it
is a numeral whose nearest float is finite, and malformed otherwise; but two plus signs in front are read as one.

The digits of an exponent are taken in until `65536` is reached, and any others are passed over. Where that changes
the exponent, it is far from zero before and after. Then only a numeral of more than 65000 bytes can be anything but
zero or beyond the floats.

## Contents
- `Decimal.exponentOf_cases`, `Numeral.InReach` — exponents as they are read, and as they are written.
- `Numeral.roundsTo_magnitude` — in reach, a numeral is rounded as it is written.
- `Token.ReadAsNumber`, `readAsNumber_ofWord` — words below `A`; `readAsNumber_ofWord_minusOneAndAHalf` — `-1.5e2`.
- `ofWord_beyondReach` — an exponent that is not in reach.
- `not_readAsNumber_twoPluses` — two plus signs.
-/

namespace TypeFour

open Float.Model.UnpackedFloat (Sign)

open Binary64

/-! ## Values -/

namespace Decimal

theorem ofDigits_eq_ofDigits (ds : List UInt8) : ofDigits ds = Nat.ofDigits 10 (ds.reverse.map digitValue) := by
  rw [ofDigits_eq_foldl, Nat.ofDigits_eq_foldr, List.map_reverse, List.foldr_reverse, List.foldl_map]
  congr 1
  funext n d
  exact Nat.add_comm _ _

/-- **The exponent that is taken in** is the one that is written, unless that is too large. -/
theorem exponentOf_cases (ds : List UInt8) :
    exponentOf ds = ofDigits ds ∨ exponentCap ≤ exponentOf ds ∧ 10 * exponentCap ≤ ofDigits ds := by
  -- digits that are passed over leave both numbers above their limits
  have hstep (n m : ℕ) (h : n = m ∨ exponentCap ≤ n ∧ 10 * exponentCap ≤ m) :
      ds.foldl (fun n d => if n < exponentCap then 10 * n + digitValue d else n) n =
          ds.foldl (fun m d => 10 * m + digitValue d) m ∨
        exponentCap ≤ ds.foldl (fun n d => if n < exponentCap then 10 * n + digitValue d else n) n ∧
          10 * exponentCap ≤ ds.foldl (fun m d => 10 * m + digitValue d) m := by
    induction ds generalizing n m with
    | nil => exact h
    | cons d ds ih =>
      apply ih
      simp only
      by_cases hcap : n < exponentCap
      · rw [if_pos hcap]
        omega
      · rw [if_neg hcap]
        omega
  rw [ofDigits_eq_foldl]
  exact hstep 0 0 (.inl rfl)

end Decimal

theorem Digits.number_lt (ds : Digits) : ds.number < 10 ^ ds.val.length := by
  have hdigit : ∀ d ∈ ds.val.reverse.map Decimal.digitValue, d < 10 := by
    intro d hd
    obtain ⟨b, hb, rfl⟩ := List.mem_map.mp hd
    have hbyte := ds.isDigit b (List.mem_reverse.mp hb)
    simp only [Decimal.isDigit, Bool.and_eq_true, decide_eq_true_eq, UInt8.le_iff_toNat_le] at hbyte
    have hnine : (0x39 : UInt8).toNat = 57 := rfl
    show b.toNat - 0x30 < 10
    omega
  have hlt := Nat.ofDigits_lt_base_pow_length (by decide) hdigit
  rwa [List.length_map, List.length_reverse] at hlt

namespace Numeral

variable {N : Numeral}

theorem magnitude_decimal (N : Numeral) : N.decimal.magnitude = N.mantissa * 10 ^ N.readPower := by
  have hdigits : Decimal.ofDigits (N.whole.val ++ N.places.val) =
      N.whole.number * 10 ^ N.places.val.length + N.places.number := by
    rw [Decimal.ofDigits_eq_ofDigits, List.reverse_append, List.map_append, Nat.ofDigits_append, List.length_map,
      List.length_reverse, Nat.add_comm, Nat.mul_comm]
    rfl
  show ((Decimal.ofDigits (N.whole.val ++ N.places.val) : ℕ) : ℚ) * 10 ^ (N.readPower - N.places.val.length) = _
  rw [hdigits, mantissa, zpow_sub₀ (by norm_num), zpow_natCast]
  push_cast
  field_simp

theorem sign_decimal (N : Numeral) : N.decimal.sign = N.sign := by
  unfold decimal Decimal.sign
  cases N.sign <;> rfl

theorem mantissa_nonneg (N : Numeral) : 0 ≤ N.mantissa := by
  unfold mantissa
  positivity

/-- A number of at most `k` digits on either side of the point is less than `10 ^ k`, and at least `10 ^ -k` if it is
not zero. -/
theorem mantissa_bounds {k : ℕ} (hwhole : N.whole.val.length ≤ k) (hplaces : N.places.val.length ≤ k) :
    N.mantissa < 10 ^ k ∧ (N.mantissa ≠ 0 → 1 / 10 ^ k ≤ N.mantissa) := by
  have hwhole' : ((N.whole.number + 1 : ℕ) : ℚ) ≤ (10 ^ k : ℕ) := by
    exact_mod_cast Nat.le_trans N.whole.number_lt (Nat.pow_le_pow_right (by decide) hwhole)
  have hplaces' : ((N.places.number : ℕ) : ℚ) < (10 ^ N.places.val.length : ℕ) := by exact_mod_cast N.places.number_lt
  have hunit : ((10 ^ N.places.val.length : ℕ) : ℚ) ≤ (10 ^ k : ℕ) := by
    exact_mod_cast Nat.pow_le_pow_right (by decide) hplaces
  have hpos : (0 : ℚ) < 10 ^ N.places.val.length := by positivity
  push_cast at hwhole' hplaces' hunit
  constructor
  · have hfraction : (N.places.number : ℚ) / 10 ^ N.places.val.length < 1 := by rwa [div_lt_one hpos]
    unfold mantissa
    linarith
  · intro hne
    have hdigits : N.mantissa =
        ((N.whole.number * 10 ^ N.places.val.length + N.places.number : ℕ) : ℚ) / 10 ^ N.places.val.length := by
      unfold mantissa
      push_cast
      field_simp
    rw [hdigits] at hne ⊢
    generalize N.whole.number * 10 ^ N.places.val.length + N.places.number = digits at hne
    have hone : (1 : ℚ) ≤ digits := by
      have hpos : 0 < digits := Nat.pos_of_ne_zero fun hzero => hne (by rw [hzero, Nat.cast_zero, zero_div])
      exact_mod_cast hpos
    exact div_le_div₀ (Nat.cast_nonneg _) hone hpos hunit

theorem length_le (N : Numeral) : N.whole.val.length ≤ N.bytes.length ∧ N.places.val.length ≤ N.bytes.length := by
  obtain ⟨mark, whole, fraction, exponent, hwritten⟩ := N
  cases fraction <;> simp only [bytes, places, fractionBytes, Option.getD, List.length_append, List.length_cons,
    List.length_nil] <;> omega

/-- The integer behind the `e`, without its sign. -/
def exponentNumber (N : Numeral) : ℕ :=
  (N.exponent.map fun x => x.digits.number).getD 0

/-- **Nothing of the exponent is passed over that would matter**: it is less than `655360`, or the numeral is not so
long that its digits could make up for such an exponent. -/
def InReach (N : Numeral) : Prop :=
  N.exponentNumber < 10 * Decimal.exponentCap ∨ N.bytes.length ≤ 65000

/-- An exponent that is not read as it is written is far from zero either way. -/
theorem readPower_cases (N : Numeral) :
    N.readPower = N.power ∨ 10 * Decimal.exponentCap ≤ N.exponentNumber ∧
      ((65536 ≤ N.readPower ∧ 65536 ≤ N.power) ∨ (N.readPower ≤ -65536 ∧ N.power ≤ -65536)) := by
  obtain ⟨mark, whole, fraction, exponent, hwritten⟩ := N
  cases exponent with
  | none => exact .inl rfl
  | some x =>
    have hcap : Decimal.exponentCap = 65536 := rfl
    have hnumber : Decimal.ofDigits x.digits.val = x.digits.number := Decimal.ofDigits_eq_ofDigits x.digits.val
    have hcases := Decimal.exponentOf_cases x.digits.val
    rw [hnumber] at hcases
    simp only [readPower, power, exponentNumber, Exponent.value, Option.map_some, Option.getD_some]
    rcases hcases with heq | ⟨hread, hwrote⟩
    · rw [heq]
      exact .inl rfl
    · refine .inr ⟨hwrote, ?_⟩
      cases x.sign.getD .positive with
      | positive =>
        refine .inl ⟨?_, ?_⟩ <;> simp only [Sign.apply] <;> omega
      | negative =>
        refine .inr ⟨?_, ?_⟩ <;> simp only [Sign.apply] <;> omega

/-- An exponent that is greater than the numeral is long. -/
theorem le_mantissa_mul {k j : ℕ} {p : ℤ} (hlength : N.bytes.length ≤ k) (hne : N.mantissa ≠ 0) (hp : k + j ≤ p) :
    2 ^ (3 * j) ≤ N.mantissa * 10 ^ p := by
  obtain ⟨hwhole, hplaces⟩ := N.length_le
  have hlow := (mantissa_bounds (hwhole.trans hlength) (hplaces.trans hlength)).2 hne
  calc (2 : ℚ) ^ (3 * j) ≤ 10 ^ j := by exact_mod_cast two_pow_le j
    _ = 1 / 10 ^ k * 10 ^ (k + j : ℤ) := by
        rw [zpow_add₀ (by norm_num : (10 : ℚ) ≠ 0), zpow_natCast, zpow_natCast]
        field_simp
    _ ≤ N.mantissa * 10 ^ p := by
        gcongr
        · exact N.mantissa_nonneg
        · norm_num

/-- One that is lower than the numeral is long. -/
theorem mantissa_mul_lt {k j : ℕ} {p : ℤ} (hlength : N.bytes.length ≤ k) (hp : p ≤ -(k + j)) :
    N.mantissa * 10 ^ p < 1 / 2 ^ (3 * j) := by
  obtain ⟨hwhole, hplaces⟩ := N.length_le
  have hhigh := (mantissa_bounds (hwhole.trans hlength) (hplaces.trans hlength)).1
  have hpower : (2 : ℚ) ^ (3 * j) ≤ 10 ^ j := by exact_mod_cast two_pow_le j
  calc N.mantissa * 10 ^ p < 10 ^ k * 10 ^ p := mul_lt_mul_of_pos_right hhigh (by positivity)
    _ ≤ 10 ^ k * 10 ^ (-(k + j) : ℤ) := by
        gcongr
        norm_num
    _ = 1 / 10 ^ j := by
        rw [zpow_neg, zpow_add₀ (by norm_num : (10 : ℚ) ≠ 0), zpow_natCast, zpow_natCast]
        field_simp
    _ ≤ 1 / 2 ^ (3 * j) := one_div_le_one_div_of_le (by positivity) hpower

theorem two_pow_le_of_far {p : ℤ} (hlength : N.bytes.length ≤ 65000) (hne : N.mantissa ≠ 0) (hp : 65536 ≤ p) :
    2 ^ 1024 ≤ N.mantissa * 10 ^ p :=
  le_trans (pow_le_pow_right₀ one_le_two (by norm_num)) (le_mantissa_mul (j := 536) hlength hne (by omega))

theorem lt_two_zpow_of_far {p : ℤ} (hlength : N.bytes.length ≤ 65000) (hp : p ≤ -65536) :
    N.mantissa * 10 ^ p < 2 ^ (-1075 : ℤ) := by
  refine (mantissa_mul_lt (j := 536) hlength (by omega)).trans_le ?_
  rw [zpow_neg, zpow_ofNat, one_div]
  exact inv_anti₀ (by positivity) (pow_le_pow_right₀ one_le_two (by norm_num))

/-- **In reach** the numeral is rounded as it is written. -/
theorem roundsTo_magnitude {s : Sign} {u : Float.Model.UnpackedFloat} (hreach : N.InReach)
    (h : RoundsTo s N.decimal.magnitude u) : RoundsTo s N.magnitude u := by
  rw [magnitude_decimal] at h
  rcases N.readPower_cases with heq | ⟨hwrote, hfar⟩
  · rwa [heq] at h
  have hlength : N.bytes.length ≤ 65000 := hreach.resolve_left (Nat.not_lt.mpr hwrote)
  rcases eq_or_ne N.mantissa 0 with hzero | hne
  · rw [hzero, zero_mul] at h
    rwa [magnitude, hzero, zero_mul]
  have hnonneg := N.mantissa_nonneg
  rcases hfar with ⟨hread, hpower⟩ | ⟨hread, hpower⟩
  · rw [h.eq_infinity (two_pow_le_of_far hlength hne hread)]
    exact .of_le s (two_pow_le_of_far hlength hne hpower)
  · rw [h.eq_zero (by positivity) (lt_two_zpow_of_far hlength hread)]
    exact .of_lt s (mul_nonneg hnonneg (by positivity)) (lt_two_zpow_of_far hlength hpower)

end Numeral

/-! ## Words -/

namespace Token

/-- What a word that should be a number and is none stands for. -/
def malformed (policy : UnknownTokens) (w : Word) : Except Fault Token :=
  match policy with
  | .strict => .error (.malformedNumber w)
  | .lenient => .ok (.operator .noOp)

/-- **A word read as a number**: a numeral whose nearest float is finite becomes that float, with the sign of the
numeral, and every other word is malformed. -/
structure ReadAsNumber (policy : UnknownTokens) (w : Word) (r : Except Fault Token) : Prop where
  number : ∀ N : Numeral, N.bytes = w → rounded N.magnitude < 2 ^ 1024 →
    ∃ x : Float, r = .ok (.number x) ∧ RoundsTo N.sign N.magnitude x.toModel.unpack
  malformed : (∀ N : Numeral, N.bytes = w → 2 ^ 1024 ≤ rounded N.magnitude) → r = malformed policy w

/-- One plus sign in front may be taken off, as it would be read over. -/
theorem read?_withoutPlus {w : Word} (h : ¬[0x2B, 0x2B] <+: w) : Decimal.read? (withoutPlus w) = Decimal.read? w := by
  cases w with
  | nil => rfl
  | cons b rest =>
    by_cases hplus : b = 0x2B ∧ rest.head? ≠ some 0x2D
    · obtain ⟨rfl, hminus⟩ := hplus
      have hsign : Decimal.splitSign rest = (false, rest) := by
        cases rest with
        | nil => rfl
        | cons c rest =>
          have hc : c ≠ 0x2B := by
            rintro rfl
            exact h ⟨rest, rfl⟩
          have hc' : c ≠ 0x2D := fun heq => hminus (congrArg some heq)
          simp only [Decimal.splitSign, if_neg hc, if_neg hc']
      have hplus : Decimal.splitSign (0x2B :: rest) = (false, rest) := rfl
      rw [withoutPlus, if_pos ⟨rfl, hminus⟩, Decimal.read?, Decimal.read?, hsign, hplus]
    · rw [withoutPlus, if_neg hplus]

theorem ofNumeral_eq (policy : UnknownTokens) (w : Word) :
    ofNumeral policy w = match numberOf? w with
      | some x => .ok (.number x)
      | none => malformed policy w := by
  unfold ofNumeral malformed
  cases numberOf? w <;> rfl

/-- `0.`, `n` zeros and `1e655361`. -/
def padded (n : ℕ) : Numeral where
  mark := none
  whole := ⟨[0x30], rfl⟩
  fraction := some ⟨List.replicate n 0x30 ++ [0x31], by simp [Decimal.isDigit]⟩
  exponent := some ⟨false, none, ⟨[0x36, 0x35, 0x35, 0x33, 0x36, 0x31], rfl⟩, nofun⟩
  written := .inl nofun

theorem mantissa_padded (n : ℕ) : (padded n).mantissa = 1 / 10 ^ (n + 1) := by
  have hplaces : (padded n).places.val = List.replicate n 0x30 ++ [0x31] := rfl
  have hnumber : (padded n).places.number = 1 := by
    have hzero : Decimal.digitValue 0x30 = 0 := rfl
    have hone : Decimal.digitValue 0x31 = 1 := rfl
    rw [Digits.number, hplaces, List.reverse_append, List.reverse_replicate, List.map_append, List.map_replicate, hzero,
      Nat.ofDigits_append_replicate_zero]
    exact hone
  have hwhole : (padded n).whole.number = 0 := rfl
  rw [Numeral.mantissa, hnumber, hwhole, hplaces, List.length_append, List.length_replicate]
  norm_num

theorem ofWord_padded {n : ℕ} (hn : 66999 ≤ n) (policy : UnknownTokens) :
    ∃ x : Float, ofWord policy (padded n).bytes = .ok (.number x) ∧ value x = 0 := by
  have hdecimal : (padded n).decimal.magnitude = 1 / 10 ^ (n + 1) * 10 ^ (65536 : ℤ) := by
    rw [Numeral.magnitude_decimal, mantissa_padded]
    rfl
  have hsmall : (padded n).decimal.magnitude < 2 ^ (-1075 : ℤ) := by
    obtain ⟨k, rfl⟩ := Nat.exists_eq_add_of_le hn
    have hpower : (2 : ℚ) ^ (3 * (1464 + k)) ≤ 10 ^ (1464 + k) := by exact_mod_cast two_pow_le (1464 + k)
    rw [hdecimal]
    calc (1 : ℚ) / 10 ^ (66999 + k + 1) * 10 ^ (65536 : ℤ) = 1 / 10 ^ (1464 + k) := by
          rw [show 66999 + k + 1 = 65536 + (1464 + k) by omega, pow_add _ 65536, zpow_ofNat]
          field_simp
      _ ≤ 1 / 2 ^ (3 * (1464 + k)) := one_div_le_one_div_of_le (by positivity) hpower
      _ < 1 / 2 ^ 1075 := one_div_lt_one_div_of_lt (by positivity) (pow_lt_pow_right₀ one_lt_two (by omega))
      _ = 2 ^ (-1075 : ℤ) := by rw [zpow_neg, zpow_ofNat, one_div]
  have hzero : (padded n).decimal.toFloat.toModel.unpack = .zero .positive :=
    (Decimal.roundsTo_toFloat (padded n).decimal).eq_zero (Decimal.magnitude_nonneg _) hsmall
  have hfinite : (padded n).decimal.toFloat.isFinite = true := by
    show (padded n).decimal.toFloat.toModel.unpack.isFinite = true
    rw [hzero]
    rfl
  refine ⟨(padded n).decimal.toFloat, ?_, by rw [value, hzero]; rfl⟩
  obtain ⟨rest, hbytes⟩ : ∃ rest, (padded n).bytes = 0x30 :: rest := ⟨_, rfl⟩
  have hplus : ¬[0x2B, 0x2B] <+: (padded n).bytes := by
    rw [hbytes]
    simp
  rw [hbytes, ofWord_numeral (by decide), ← hbytes, ofNumeral_eq, numberOf?, read?_withoutPlus hplus,
    Decimal.read?_bytes, Option.map_some, Option.filter_some, if_pos hfinite]

theorem magnitude_padded {n : ℕ} (hn : n + 1 = 655361) : (padded n).magnitude = 1 := by
  have hpower : (padded n).power = (n + 1 : ℕ) := by
    rw [hn]
    rfl
  rw [Numeral.magnitude, mantissa_padded, hpower, zpow_natCast]
  field_simp

/-- **Beyond reach.** `0.`, `655360` zeros and `1e655361` is one in writing. The last digit of the exponent is passed
over, and it is read as zero. -/
theorem ofWord_beyondReach (policy : UnknownTokens) :
    ∃ (N : Numeral) (x : Float), N.magnitude = 1 ∧ ofWord policy N.bytes = .ok (.number x) ∧ value x = 0 := by
  obtain ⟨n, hn⟩ : ∃ n, n + 1 = 655361 := ⟨655360, rfl⟩
  obtain ⟨x, hread, hzero⟩ := ofWord_padded (n := n) (by omega) policy
  exact ⟨padded n, x, magnitude_padded hn, hread, hzero⟩

end Token

end TypeFour
