import TypeFour.Decimal.Basic

/-!
# `TypeFour.Decimal.Shortest` — the fewest digits that read back

Every float stands for the interval of reals that round to it, ends included when its mantissa
is even. Among the decimals in that interval this module finds one with the fewest digits, and
of those the one nearest to the float; when two are equally near, the larger.

The search runs over grids: the multiples of a power of ten. On a grid only the two neighbours of
the float can be nearest, and the first grid, from one digit up, with a neighbour inside the
interval gives the answer. Seventeen digits are enough for any float.

## Contents
- `Gap` — a float and its interval, as fractions over one denominator.
- `Gap.nearest?` — the better neighbour on a grid, if one lies inside.
- `shortest?` — the decimal.
-/

namespace TypeFour.Decimal

/-- The interval from `lower / unit` to `upper / unit` around `value / unit`, with its ends when
`closed`. -/
structure Gap where
  lower : Nat
  value : Nat
  upper : Nat
  unit : Nat
  closed : Bool

namespace Gap

/-- The reals that round to `m · 2 ^ e`: half a step either way, where the step below a power of
two is half as long unless that is the smallest exponent. Fractions are in quarters of a step. -/
def ofFinite (m : Nat) (e : Int) : Gap :=
  let below := if m = 1 <<< 52 ∧ e ≠ -1074 then 1 else 2
  let times := 1 <<< (e - 2).toNat
  { lower := (4 * m - below) * times
    value := 4 * m * times
    upper := (4 * m + 2) * times
    unit := 1 <<< (2 - e).toNat
    closed := m % 2 = 0 }

/-- The same interval measured in multiples of `10 ^ k`. -/
def scale (g : Gap) (k : Int) : Gap :=
  let up := Nat.pow 10 (-k).toNat
  { g with
    lower := g.lower * up
    value := g.value * up
    upper := g.upper * up
    unit := g.unit * Nat.pow 10 k.toNat }

/-- The whole number `n` lies in the interval. -/
def holds (g : Gap) (n : Nat) : Bool :=
  if g.closed then g.lower ≤ n * g.unit && n * g.unit ≤ g.upper
  else g.lower < n * g.unit && n * g.unit < g.upper

/-- The whole number in the interval that is nearest to the value, if it is one of the two next
to it; a tie goes up. -/
def nearest? (g : Gap) : Option Nat :=
  let n := g.value / g.unit
  match g.holds n, g.holds (n + 1) with
  | false, false => none
  | true, false => some n
  | false, true => some (n + 1)
  | true, true => some (if 2 * g.value < (2 * n + 1) * g.unit then n else n + 1)

/-- How many digits a number has. -/
def width (n : Nat) : Nat :=
  (Nat.toDigits 10 n).length

/-- The `p` with `10 ^ (p - 1) ≤ value < 10 ^ p`. -/
def point (g : Gap) : Int :=
  if g.unit ≤ g.value then width (g.value / g.unit) else 1 - (width ((g.unit - 1) / g.value) : Int)

end Gap

/-- The decimal with the fewest digits that reads back as `x`; nothing for an infinity or for
not-a-number. -/
def shortest? (x : Float) : Option Decimal :=
  match x.toModel.unpack with
  | .infinity _ | .notANumber => none
  | .zero s => some ⟨s == .negative, 0, 0⟩
  | .finite s m e _ =>
    let g := Gap.ofFinite m e
    (List.range 17).findSome? fun (i : Nat) =>
      let k := g.point - 1 - i
      (g.scale k).nearest?.map fun n => ⟨s == .negative, n, k⟩

end TypeFour.Decimal
