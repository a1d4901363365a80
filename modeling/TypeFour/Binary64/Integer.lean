/-!
# `TypeFour.Binary64.Integer` — between floats and 64-bit integers

## Contents
- `toInt64` — the integer part of a float, brought into range.
- `ofInt64` — the float nearest to an integer.
-/

namespace TypeFour.Binary64

/-- The integer part of `x`. What lies outside the range goes to the nearer end of it, and
not-a-number goes to zero. -/
def toInt64 (x : Float) : Int64 :=
  x.toModel.toInt64

/-- The float nearest to an integer. -/
def ofInt64 (n : Int64) : Float :=
  .ofModel (.ofInt64 n)

end TypeFour.Binary64
