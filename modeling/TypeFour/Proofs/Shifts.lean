import TypeFour.Proofs.Remainder

/-!
# `TypeFour.Proofs.Shifts` — `bitshift` moves the bits of a word

`bitshift` works on words of 32 bits. The lower operand becomes a word, the upper one says how far its bits move:
up, which multiplies by a power of two, or down, which divides by one. Whatever leaves the word at either end is
lost, and zeros come in. So from 32 places on nothing is left, and it makes no difference that an amount beyond the
range of 64-bit integers goes to the nearer end of it. The first bit of the word that comes out is read as a sign.

## Contents
- `moved` — the bits of a word, moved by any integer; `moved_of_le`, `moved_of_le_neg` — from 32 places on.
- `toNat_shifted` — what the machine moves by a 64-bit integer; `toNat_shifted_ofIntClamp` — by any integer.
- `signedReading`, `toInt_toInt32_eq` — words with a sign.
- `execute_bitshift` — the operator; `execute_bitshift_signMoves` — the bit of the sign.
-/

namespace TypeFour

open Binary64

/-! ## Moving bits -/

/-- The 32 lowest binary digits of `n · 2 ^ k`, what is behind the point being cut off. -/
def moved (n k : ℤ) : ℤ :=
  ⌊(n : ℚ) * 2 ^ k⌋ % 2 ^ 32

theorem moved_natCast (n : ℤ) (k : ℕ) : moved n k = n * 2 ^ k % 2 ^ 32 := by
  have hinteger : (n : ℚ) * 2 ^ (k : ℤ) = (n * 2 ^ k : ℤ) := by
    push_cast
    rfl
  rw [moved, hinteger, Int.floor_intCast]

theorem moved_neg_natCast (n k : ℕ) : moved n (-k : ℤ) = (n / 2 ^ k : ℕ) % 2 ^ 32 := by
  have hquotient : ((n : ℤ) : ℚ) * 2 ^ (-k : ℤ) = (n : ℚ) / (2 ^ k : ℕ) := by
    rw [zpow_neg, zpow_natCast, ← div_eq_mul_inv]
    push_cast
    rfl
  rw [moved, hquotient, Rat.floor_natCast_div_natCast, Int.natCast_ediv]

/-- Up by 32 places or more, every bit has left. -/
theorem moved_of_le (n : ℤ) {k : ℤ} (hk : 32 ≤ k) : moved n k = 0 := by
  obtain ⟨j, rfl⟩ : ∃ j : ℕ, k = (32 + j : ℕ) := ⟨(k - 32).toNat, by omega⟩
  rw [moved_natCast, pow_add, ← mul_assoc, mul_right_comm]
  exact Int.mul_emod_left _ _

/-- Down as well. -/
theorem moved_of_le_neg {n : ℕ} (hn : n < 2 ^ 32) {k : ℤ} (hk : k ≤ -32) : moved n k = 0 := by
  obtain ⟨j, rfl⟩ : ∃ j : ℕ, k = -(j : ℤ) := ⟨k.natAbs, by omega⟩
  have hlt : n < 2 ^ j := Nat.lt_of_lt_of_le hn (Nat.pow_le_pow_right Nat.two_pos (by omega))
  rw [moved_neg_natCast, Nat.div_eq_of_lt hlt]
  rfl

theorem toInt_ofNat_clamp {k : Int64} (hlow : 0 ≤ k.toInt) (hhigh : k.toInt < 32) :
    ((UInt32.ofNat k.toNatClampNeg).toNat % 32 : ℕ) = k.toInt.toNat := by
  show k.toInt.toNat % 2 ^ 32 % 32 = _
  omega

/-- **Moving by a 64-bit integer.** -/
theorem toNat_shifted (bits : UInt32) (k : Int64) :
    ((Behaviour.shifted bits k).toNat : ℤ) = moved bits.toNat k.toInt := by
  have hbits : bits.toNat < 2 ^ 32 := bits.toNat_lt
  have hzero : (0 : Int64).toInt = 0 := rfl
  have h32 : (32 : Int64).toInt = 32 := rfl
  have hneg32 : (-32 : Int64).toInt = -32 := rfl
  unfold Behaviour.shifted
  simp only [Int64.le_iff_toInt_le, Int64.lt_iff_toInt_lt, hzero, h32, hneg32]
  split
  · next h =>
    obtain ⟨hlow, hhigh⟩ := h
    rw [UInt32.toNat_shiftLeft, toInt_ofNat_clamp hlow hhigh, Nat.shiftLeft_eq]
    generalize k.toInt = k at hlow
    obtain ⟨j, rfl⟩ := Int.eq_ofNat_of_zero_le hlow
    rw [moved_natCast, Int.toNat_natCast]
    push_cast
    rfl
  · next hup =>
    split
    · next h =>
      obtain ⟨hlow, hhigh⟩ := h
      have hneg : (-k).toInt = -k.toInt := by
        rw [Int64.toInt_neg]
        exact Int.bmod_eq_of_le (by omega) (by omega)
      rw [UInt32.toNat_shiftRight, toInt_ofNat_clamp (by omega) (by omega), hneg, Nat.shiftRight_eq_div_pow]
      obtain ⟨j, hj⟩ : ∃ j : ℕ, k.toInt = -(j : ℤ) := ⟨k.toInt.natAbs, by omega⟩
      have hlt : bits.toNat / 2 ^ j < 2 ^ 32 := Nat.lt_of_le_of_lt (Nat.div_le_self _ _) hbits
      rw [hj, moved_neg_natCast, Int.neg_neg, Int.toNat_natCast]
      generalize bits.toNat / 2 ^ j = quotient at hlt ⊢
      omega
    · next hdown =>
      rcases Int.lt_or_le k.toInt 32 with hk | hk
      · rw [moved_of_le_neg hbits (by omega)]
        rfl
      · rw [moved_of_le _ hk]
        rfl

/-- **Moving by any integer**, brought into the range of 64-bit integers. Beyond it no bit is left. -/
theorem toNat_shifted_ofIntClamp (bits : UInt32) (k : ℤ) :
    ((Behaviour.shifted bits (Int64.ofIntClamp k)).toNat : ℤ) = moved bits.toNat k := by
  have hbits : bits.toNat < 2 ^ 32 := bits.toNat_lt
  rw [toNat_shifted]
  rcases lt_or_ge k (-2 ^ 63) with hlow | hlow
  · rw [toInt_ofIntClamp_of_lt_min hlow, moved_of_le_neg hbits (by omega), moved_of_le_neg hbits (by omega)]
  rcases lt_or_ge k (2 ^ 63) with hhigh | hhigh
  · rw [toInt_ofIntClamp_of_lt hlow hhigh]
  · rw [toInt_ofIntClamp_of_le hhigh, moved_of_le _ (by omega), moved_of_le _ (by omega)]

/-! ## Words with a sign -/

/-- The integer that a word stands for when its first bit is a sign. -/
def signedReading (n : ℤ) : ℤ :=
  if n < 2 ^ 31 then n else n - 2 ^ 32

theorem toInt_toInt32_eq (bits : UInt32) : bits.toInt32.toInt = signedReading bits.toNat := by
  show bits.toBitVec.toInt = _
  rw [BitVec.toInt_eq_toNat_cond, signedReading]
  show (if 2 * bits.toNat < 2 ^ 32 then (bits.toNat : ℤ) else bits.toNat - (2 ^ 32 : ℕ)) = _
  split <;> split <;> omega

/-- An integer becomes the word of its 32 lowest digits. -/
theorem toNat_toUInt32_eq (i : Int64) : (i.toInt32.toUInt32.toNat : ℤ) = i.toInt % 2 ^ 32 := by
  have hlt := i.toInt32.toUInt32.toNat_lt
  have hreading : signedReading i.toInt32.toUInt32.toNat = i.toInt.bmod (2 ^ 32) := by
    rw [← toInt_toInt32_eq, ← Int64.toInt_toInt32]
    rfl
  have hmod : i.toInt.bmod (2 ^ 32) % 2 ^ 32 = i.toInt % 2 ^ 32 := Int.bmod_emod
  rw [← hmod, ← hreading, signedReading]
  split <;> omega

theorem signedReading_bounds {n : ℤ} (hlow : 0 ≤ n) (hhigh : n < 2 ^ 32) :
    -2 ^ 31 ≤ signedReading n ∧ signedReading n < 2 ^ 31 := by
  unfold signedReading
  split <;> omega

/-! ## The operator -/

variable {items : List Value} {limit : Option Nat} {x s : Float}

/-- An integer part outside the range of words is refused, also when it is no 64-bit integer. -/
theorem lt_or_gt_ofIntClamp_iff {a : ℤ} :
    Int64.ofIntClamp a < Int32.minValue.toInt64 ∨ Int32.maxValue.toInt64 < Int64.ofIntClamp a ↔
      ¬(-2 ^ 31 ≤ a ∧ a < 2 ^ 31) := by
  have hmin : Int32.minValue.toInt64.toInt = -2 ^ 31 := rfl
  have hmax : Int32.maxValue.toInt64.toInt = 2 ^ 31 - 1 := rfl
  rw [Int64.lt_iff_toInt_lt, Int64.lt_iff_toInt_lt, hmin, hmax]
  rcases lt_or_ge a (-2 ^ 63) with hlow | hlow
  · rw [toInt_ofIntClamp_of_lt_min hlow]
    omega
  rcases lt_or_ge a (2 ^ 63) with hhigh | hhigh
  · rw [toInt_ofIntClamp_of_lt hlow hhigh]
    omega
  · rw [toInt_ofIntClamp_of_le hhigh]
    omega

theorem Behaviour.shift_of_outside
    (h : toInt64 x < Int32.minValue.toInt64 ∨ Int32.maxValue.toInt64 < toInt64 x) :
    Behaviour.shift ⟨.number s :: .number x :: items, limit⟩ = .error .rangeCheck ⟨items, limit⟩ := by
  show (if toInt64 x < Int32.minValue.toInt64 ∨ Int32.maxValue.toInt64 < toInt64 x then
    (do throw .rangeCheck; Stack.push _) else Stack.push _ : Action Unit) ⟨items, limit⟩ = _
  rw [if_pos h]
  rfl

theorem Behaviour.shift_of_inside
    (h : ¬(toInt64 x < Int32.minValue.toInt64 ∨ Int32.maxValue.toInt64 < toInt64 x)) :
    Behaviour.shift ⟨.number s :: .number x :: items, limit⟩ =
      Stack.push (.number (ofInt64 (shifted (toInt64 x).toInt32.toUInt32 (toInt64 s)).toInt32.toInt64))
        ⟨items, limit⟩ := by
  show (if toInt64 x < Int32.minValue.toInt64 ∨ Int32.maxValue.toInt64 < toInt64 x then
    (do throw .rangeCheck; Stack.push _) else Stack.push _ : Action Unit) ⟨items, limit⟩ = _
  rw [if_neg h]

/-- On the numbers `x` and `s`, the upper one, above some values, `bitshift` leaves a number in the place of the
two: the bits of the word that `a` is in, moved by `k` places and read with a sign. -/
def LeavesShifted (e : Elementary) (again : List Instruction → Stack → Run) (x s : Float) (a k : ℤ)
    (items : List Value) (limit : Option Nat) : Prop :=
  ∃ r : Float, r.isFinite = true ∧ value r = signedReading (moved (a % 2 ^ 32) k) ∧
    -2 ^ 31 ≤ value r ∧ value r < 2 ^ 31 ∧
    execute e again .bitshift ⟨.number s :: .number x :: items, limit⟩ = some (.ok () ⟨.number r :: items, limit⟩)

/-- **A shift of 32 bits**, for two finite numbers with the integer parts `a` and `k`, on a stack within its limit.
If `a` is outside the range of signed words the shift fails with `rangeCheck`. Otherwise it succeeds for any `k`,
and leaves the 32 lowest digits of the word that `a` is, times `2 ^ k`, read with a sign. -/
theorem execute_bitshift (e : Elementary) (again : List Instruction → Stack → Run) (x s : Float) (a k : ℤ)
    (items : List Value) (limit : Option Nat)
    (hroom : Stack.hasRoom ⟨.number s :: .number x :: items, limit⟩ 0 = true) (hx : x.isFinite = true)
    (hs : s.isFinite = true) (ha : integerPart (value x) = a) (hk : integerPart (value s) = k) :
    (¬(-2 ^ 31 ≤ a ∧ a < 2 ^ 31) → execute e again .bitshift ⟨.number s :: .number x :: items, limit⟩ =
      some (.error .rangeCheck ⟨items, limit⟩)) ∧
    (-2 ^ 31 ≤ a ∧ a < 2 ^ 31 → LeavesShifted e again x s a k items limit) := by
  have hxa : toInt64 x = Int64.ofIntClamp a := by rw [toInt64_eq hx, ha]
  have hsk : toInt64 s = Int64.ofIntClamp k := by rw [toInt64_eq hs, hk]
  constructor
  · intro houtside
    show some (Behaviour.shift _) = _
    rw [Behaviour.shift_of_outside]
    rwa [hxa, lt_or_gt_ofIntClamp_iff]
  · intro hinside
    have hword : ¬(toInt64 x < Int32.minValue.toInt64 ∨ Int32.maxValue.toInt64 < toInt64 x) := by
      rw [hxa, lt_or_gt_ofIntClamp_iff]
      exact not_not_intro hinside
    have hpush : Behaviour.shift ⟨.number s :: .number x :: items, limit⟩ = _ := Behaviour.shift_of_inside hword
    generalize hshifted : Behaviour.shifted (toInt64 x).toInt32.toUInt32 (toInt64 s) = word at hpush
    -- the word that is left, as an integer
    have hmoved : (word.toNat : ℤ) = moved (a % 2 ^ 32) k := by
      rw [← hshifted, hsk, toNat_shifted_ofIntClamp, toNat_toUInt32_eq, hxa,
        toInt_ofIntClamp_of_lt (by omega) (by omega)]
    have hread : word.toInt32.toInt64.toInt = signedReading (moved (a % 2 ^ 32) k) := by
      rw [Int32.toInt_toInt64, toInt_toInt32_eq, hmoved]
    obtain ⟨hlow, hhigh⟩ := signedReading_bounds (n := word.toNat) (by omega) (by exact_mod_cast word.toNat_lt)
    rw [hmoved, ← hread] at hlow hhigh
    have hvalue : value (ofInt64 word.toInt32.toInt64) = word.toInt32.toInt64.toInt :=
      value_ofInt64 (Short.of_lt (by omega))
    refine ⟨ofInt64 word.toInt32.toInt64, isFinite_ofInt64 _, by rw [hvalue, hread], ?_, ?_, ?_⟩
    · rw [hvalue]
      exact_mod_cast hlow
    · rw [hvalue]
      exact_mod_cast hhigh
    · show some (Behaviour.shift _) = _
      rw [hpush, Stack.push_operand hroom]

/-- `-2147483648.5` is the word whose only bit is the sign. Moved down by 31 places that bit is one, and moved up by
`2 ^ 64` places nothing is left. `2147483648` is no word. -/
theorem execute_bitshift_signMoves :
    integerPart (value (-2147483648.5)) = -2 ^ 31 ∧ integerPart (value (-31.5)) = -31 ∧
      integerPart (value 18446744073709551616) = 2 ^ 64 ∧
      integerPart (value 2147483648) = 2 ^ 31 ∧
      LeavesShifted .machine (replay .machine 0) (-2147483648.5) (-31.5) (-2 ^ 31) (-31) [] (some 2) ∧
      signedReading (moved (-2 ^ 31 % 2 ^ 32) (-31)) = 1 ∧
      LeavesShifted .machine (replay .machine 0) (-2147483648.5) 18446744073709551616 (-2 ^ 31) (2 ^ 64)
        [] (some 2) ∧
      signedReading (moved (-2 ^ 31 % 2 ^ 32) (2 ^ 64)) = 0 ∧
      execute .machine (replay .machine 0) .bitshift ⟨[.number (-31.5), .number 2147483648], some 2⟩ =
        some (.error .rangeCheck ⟨[], some 2⟩) := by
  have hsign : integerPart (value (-2147483648.5)) = -2 ^ 31 :=
    integerPart_value (s := .negative) (m := 4294967297 <<< 20) (e := -21) (by decide) rfl
  have hdown : integerPart (value (-31.5)) = -31 :=
    integerPart_value (s := .negative) (m := 63 <<< 47) (e := -48) (by decide) rfl
  have hup : integerPart (value 18446744073709551616) = 2 ^ 64 :=
    integerPart_value (s := .positive) (m := 2 ^ 52) (e := 12) (by decide) rfl
  have hbeyond : integerPart (value 2147483648) = 2 ^ 31 :=
    integerPart_value (s := .positive) (m := 2 ^ 52) (e := -21) (by decide) rfl
  refine ⟨hsign, hdown, hup, hbeyond, ?_, ?_, ?_, ?_, ?_⟩
  · exact (execute_bitshift _ _ _ _ _ _ [] _ rfl rfl rfl hsign hdown).2 (by decide)
  · have hword : (-2 ^ 31 % 2 ^ 32 : ℤ) = (2 ^ 31 : ℕ) := by decide
    have hone : moved (2 ^ 31 : ℕ) (-31) = 1 := moved_neg_natCast (2 ^ 31) 31
    rw [hword, hone]
    rfl
  · exact (execute_bitshift _ _ _ _ _ _ [] _ rfl rfl rfl hsign hup).2 (by decide)
  · rw [moved_of_le _ (by norm_num)]
    rfl
  · exact (execute_bitshift _ _ _ _ _ _ [] _ rfl rfl rfl hbeyond hdown).1 (by decide)

end TypeFour
