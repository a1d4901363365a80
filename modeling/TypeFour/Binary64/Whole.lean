/-!
# `TypeFour.Binary64.Whole` — whole numbers among the 64-bit floats

A finite float is `± m · 2 ^ e`. When `e` is not negative it is whole already; otherwise its
magnitude is `m / 2 ^ (-e)`, and rounding to a whole number is one division of natural numbers.
The sign survives, so a magnitude that rounds to nothing gives a zero of the same sign; infinities,
not-a-number and zeros are left alone.

## Contents
- `ofScaled` — the float nearest to `± m · 2 ^ e`.
- `truncate`, `floor`, `ceiling` — the three directed roundings to whole numbers.
- `roundHalfUp` — the nearest whole number, halves going up.
-/

namespace TypeFour.Binary64

open Float.Model (Format UnpackedFloat)
open Float.Model.UnpackedFloat (Sign)

/-- The float nearest to `± m · 2 ^ e`. A zero keeps the sign. -/
def ofScaled (s : Sign) (m : Nat) (e : Int) : Float :=
  .ofModel (.pack (.normalize .binary64 (s.apply m) e s))

/-- The whole part of `m / 2 ^ k`, or the next whole number when `up` asks for it and something
is left over. -/
def wholePart (up : Bool) (m k : Nat) : Nat :=
  let whole := m >>> k
  if up && whole <<< k != m then whole + 1 else whole

/-- Rounds to a whole number, the magnitude going up for the signs that `up` holds of. -/
def toWhole (up : Sign → Bool) (x : Float) : Float :=
  match x.toModel.unpack with
  | .finite s m e _ => if 0 ≤ e then x else ofScaled s (wholePart (up s) m (-e).toNat) 0
  | _ => x

/-- The whole number next to `x` on the side of zero. -/
def truncate : Float → Float :=
  toWhole fun _ => false

/-- The greatest whole number that is at most `x`. -/
def floor : Float → Float :=
  toWhole fun s => s == .negative

/-- The least whole number that is at least `x`. -/
def ceiling : Float → Float :=
  toWhole fun s => s == .positive

/-- The whole number nearest to `x`; a half goes toward positive infinity. The distance from the
floor decides, as adding a half to `x` first could itself round up. -/
def roundHalfUp (x : Float) : Float :=
  let below := floor x
  if x - below ≥ 0.5 then below + 1.0 else below

end TypeFour.Binary64
