import TypeFour.Binary64.Whole

/-!
# `TypeFour.Binary64.Remainder` — what a division of floats leaves over

## Contents
- `remainder` — the exact remainder of the division that truncates, with the sign of the dividend.
- `positiveRemainder` — the remainder brought into `[0, y)`, up to one rounding.
-/

namespace TypeFour.Binary64

/-- `x - y · q`, where `q` is `x / y` without its fraction. Both are brought to the smaller of the
two exponents, where the remainder of the mantissas is exact. Not-a-number when `x` is infinite or
`y` is zero. -/
def remainder (x y : Float) : Float :=
  match x.toModel.unpack, y.toModel.unpack with
  | .finite s m e _, .finite _ n f _ =>
    let g := min e f
    ofScaled s ((m <<< (e - g).toNat) % (n <<< (f - g).toNat)) g
  | .finite .., .infinity _ => x
  | .zero _, .finite .. => x
  | .zero _, .infinity _ => x
  | _, _ => .ofModel (.pack .notANumber)

/-- The remainder of `x` by `y`, with `y` added to a negative one. The sum is rounded, so a tiny
negative remainder may come out as `y` itself. -/
def positiveRemainder (x y : Float) : Float :=
  let r := remainder x y
  if r < 0 then r + y.abs else r

end TypeFour.Binary64
