/-!
# `TypeFour.Decimal.Basic` — decimal numerals

A numeral is an optional sign, digits with at most one point and at least one digit, and
optionally `e` or `E` with a whole exponent, itself optionally signed. Its value is
`± digits · 10 ^ exponent` with both parts whole, so only `toFloat` rounds. Reading keeps every
digit but the last ones of an exponent past `exponentCap`.

## Contents
- `Decimal` — a decimal value.
- `Decimal.ofDigits`, `Decimal.exponentOf` — the numbers that digits and an exponent's digits write.
- `Decimal.read?` — the value of a numeral, for a byte sequence that is one from end to end.
- `Decimal.toFloat` — the nearest 64-bit float.
-/

namespace TypeFour

/-- The value `± digits · 10 ^ exponent`. The sign is kept apart, as zero has two. -/
structure Decimal where
  negative : Bool
  digits : Nat
  exponent : Int
deriving DecidableEq, Repr

namespace Decimal

/-! ## Digits and signs -/

/-- `0` to `9`. -/
def isDigit (b : UInt8) : Bool :=
  0x30 ≤ b && b ≤ 0x39

/-- The number from 0 to 9 that a digit writes. -/
def digitValue (b : UInt8) : Nat :=
  b.toNat - 0x30

/-- Where a block of digits ends, some three hundred of them. -/
def blockLimit : Nat :=
  1 <<< 1000

/-- A number part-way through its digits, `high · scale + low`. Digits go into `low` until `scale`
reaches the limit of a block, so most steps leave the long part alone. -/
structure Reading where
  high : Nat
  low : Nat
  scale : Nat

namespace Reading

/-- Before the first digit. -/
def start : Reading :=
  ⟨0, 0, 1⟩

/-- The number so far. -/
def value (r : Reading) : Nat :=
  r.high * r.scale + r.low

/-- Takes in one more digit: the number so far times ten, plus `d`. -/
def push (r : Reading) (d : Nat) : Reading :=
  if r.scale < blockLimit then ⟨r.high, 10 * r.low + d, 10 * r.scale⟩
  else ⟨r.value, d, 10⟩

theorem value_push (r : Reading) (d : Nat) : (r.push d).value = 10 * r.value + d := by
  unfold push
  split
  · simp only [value, Nat.mul_left_comm r.high 10, Nat.mul_add, Nat.add_assoc]
  · simp only [value, Nat.mul_comm]

end Reading

/-- The number that a run of digits writes; nothing writes zero. -/
def ofDigits (ds : List UInt8) : Nat :=
  (ds.foldl (fun r d => r.push (digitValue d)) Reading.start).value

/-- Blocks aside, each digit counts ten times the number before it. -/
theorem ofDigits_eq_foldl (ds : List UInt8) :
    ofDigits ds = ds.foldl (fun n d => 10 * n + digitValue d) 0 := by
  have step : ∀ r : Reading, (ds.foldl (fun r d => r.push (digitValue d)) r).value =
      ds.foldl (fun n d => 10 * n + digitValue d) r.value := by
    induction ds with
    | nil => exact fun _ => rfl
    | cons d ds ih => exact fun r => by rw [List.foldl_cons, List.foldl_cons, ih, Reading.value_push]
  exact step Reading.start

/-- Where an exponent stops growing. -/
def exponentCap : Nat :=
  0x10000

/-- The number that an exponent's digits write. Once it has reached the cap further digits are
passed over, so it stays below ten times the cap. -/
def exponentOf (ds : List UInt8) : Nat :=
  ds.foldl (fun n d => if n < exponentCap then 10 * n + digitValue d else n) 0

/-- Takes a sign off the front: whether it is `-`, and what follows. -/
def splitSign : List UInt8 → Bool × List UInt8
  | [] => (false, [])
  | b :: bs => if b = 0x2D then (true, bs) else if b = 0x2B then (false, bs) else (false, b :: bs)

/-! ## Numerals -/

/-- The exponent that the end of a numeral gives: none written is zero. -/
def readExponent? : List UInt8 → Option Int
  | [] => some 0
  | b :: bs =>
    let (negative, ds) := splitSign bs
    if (b = 0x65 || b = 0x45) && !ds.isEmpty && ds.all isDigit then
      some (if negative then -(exponentOf ds : Int) else exponentOf ds)
    else none

/-- The digits after a point, and what follows them; without a point there are none. -/
def splitFraction : List UInt8 → List UInt8 × List UInt8
  | [] => ([], [])
  | b :: bs => if b = 0x2E then (bs.takeWhile isDigit, bs.dropWhile isDigit) else ([], b :: bs)

/-- The value of a numeral; nothing when the bytes are not one from end to end. -/
def read? (text : List UInt8) : Option Decimal :=
  let (negative, body) := splitSign text
  let whole := body.takeWhile isDigit
  let (fraction, rest) := splitFraction (body.dropWhile isDigit)
  if whole.isEmpty && fraction.isEmpty then none
  else
    (readExponent? rest).map fun e => ⟨negative, ofDigits (whole ++ fraction), e - fraction.length⟩

/-! ## Value -/

/-- The magnitude is `2 ^ 1024` or more, as its leading bit shows: three powers of ten are less
than ten powers of two. -/
def isHuge (d : Decimal) : Bool :=
  1024 + 10 * ((-d.exponent).toNat / 3 + 1) ≤ d.digits.log2

/-- The nearest 64-bit float, of two equally near the even one; too large gives an infinity. -/
def toFloat (d : Decimal) : Float :=
  let magnitude : Float :=
    if d.isHuge then 1 / 0 else .ofModel (.ofScientific d.digits d.exponent)
  if d.negative then -magnitude else magnitude

end Decimal

end TypeFour
