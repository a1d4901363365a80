import TypeFour.Decimal.Shortest

/-!
# `TypeFour.Decimal.Positional` — floats as text

A float is written with the fewest digits that read back, always positionally: no exponent, no
point in a whole number, no zero at the end of a fraction. The reader takes any numeral, and
besides numerals the names of the infinities and of not-a-number.

## Contents
- `Decimal.text` — a decimal value written positionally.
- `floatText` — a float as text.
- `readFloat?` — a float from text.
-/

namespace TypeFour

namespace Decimal

/-- The digits `ds` with a point before the last `places` of them, zeros filling the front, and
no zero at the end of the fraction. -/
def withPoint (ds : List Char) (places : Nat) : List Char :=
  let padded := List.replicate (places + 1 - ds.length) '0' ++ ds
  let whole := padded.take (padded.length - places)
  let fraction := (padded.drop (padded.length - places)).reverse.dropWhile (· == '0') |>.reverse
  if fraction.isEmpty then whole else whole ++ '.' :: fraction

/-- The value written without an exponent. -/
def text (d : Decimal) : String :=
  let ds := withPoint (Nat.toDigits 10 (d.digits * Nat.pow 10 d.exponent.toNat)) (-d.exponent).toNat
  String.ofList (if d.negative then '-' :: ds else ds)

end Decimal

/-- A float as text, with names for the values that no digits write. -/
def floatText (x : Float) : String :=
  match Decimal.shortest? x with
  | some d => d.text
  | none => if x.isNaN then "NaN" else if x < 0 then "-inf" else "inf"

/-- The value that a name stands for, in letters of either case. -/
def namedFloat? (name : List UInt8) : Option Float :=
  let lower := String.ofList (name.map fun b => (Char.ofNat b.toNat).toLower)
  if lower = "inf" ∨ lower = "infinity" then some (1 / 0)
  else if lower = "nan" then some (0 / 0)
  else none

/-- The float that a text writes: a numeral, rounded to nearest, or a name after an optional
sign. -/
def readFloat? (text : List UInt8) : Option Float :=
  match Decimal.read? text with
  | some d => some d.toFloat
  | none =>
    let (negative, name) := Decimal.splitSign text
    (namedFloat? name).map fun x => if negative then -x else x

end TypeFour
