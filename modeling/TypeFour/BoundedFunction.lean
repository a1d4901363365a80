import TypeFour.Session

/-!
# `TypeFour.BoundedFunction` — programs with a domain and a range

A function is a program with an interval for each of its inputs and, if it declares a range, for
each of its outputs. Inputs are clipped to their intervals before the program runs. Of the range
only the number of intervals matters: that many values are taken from the top of the stack.

## Contents
- `Interval`, `Interval.clip`, `intervals` — closed intervals.
- `BoundedFunction`, `BoundedFunction.make` — functions, from the bounds in one row.
- `BoundedFunction.evaluate`.
-/

namespace TypeFour

/-! ## Intervals -/

/-- The floats from `lo` to `hi`. -/
structure Interval where
  lo : Float
  hi : Float
  ordered : lo ≤ hi

namespace Interval

/-- The float itself, or the bound that it lies beyond. -/
def clip (i : Interval) (x : Float) : Float :=
  if x < i.lo then i.lo else if x > i.hi then i.hi else x

/-- The bounds of intervals in one row. -/
def bounds (is : List Interval) : List Float :=
  is.flatMap fun i => [i.lo, i.hi]

end Interval

/-- The intervals whose bounds stand in a row, the lower one of each first. A bound left over and a
pair out of order are refused, and so is a pair with not-a-number in it. -/
def intervals : List Float → Except Fault (List Interval)
  | [] => .ok []
  | [_] => .error .rangeCheck
  | lo :: hi :: rest =>
    if ordered : lo ≤ hi then (intervals rest).map (⟨lo, hi, ordered⟩ :: ·) else .error .rangeCheck

/-! ## Functions -/

/-- A program with its domain, its range if it declares one, and the options it runs under. -/
structure BoundedFunction where
  program : List UInt8
  domain : List Interval
  range : Option (List Interval)
  options : Options := {}

namespace BoundedFunction

/-- A function from the bounds of its domain and its range. -/
def make (program : List UInt8) (domain : List Float) (range : Option (List Float)) :
    Except Fault BoundedFunction := do
  let domain ← intervals domain
  let range ← range.mapM intervals
  return { program, domain, range }

/-- How many inputs the function takes. -/
def inputCount (f : BoundedFunction) : Nat :=
  f.domain.length

/-- How many outputs the function gives, if it declares a range. -/
def outputCount? (f : BoundedFunction) : Option Nat :=
  f.range.map List.length

/-- The outputs on the final stack: all of it without a range, else as many values from the top as
the range has intervals, in either case from the bottom up. Every value on the stack has to be a
number. -/
def outputs (f : BoundedFunction) (stack : Stack) : Except Fault (List Float) := do
  let numbers ← stack.toNumbers
  match f.outputCount? with
  | none => return numbers
  | some n =>
    if numbers.length < n then throw .stackUnderflow
    return numbers.drop (numbers.length - n)

/-- The outputs for some inputs, with at most `n` replays under way at once. -/
def evaluate (e : Elementary) (n : Nat) (f : BoundedFunction) (inputs : List Float) :
    Outcome (List Float) :=
  if inputs.length ≠ f.inputCount then some (.error .rangeCheck)
  else
    let clipped := List.zipWith Interval.clip f.domain inputs
    (TypeFour.evaluate e n f.options (.ofBytes f.program) clipped).map (·.bind f.outputs)

end BoundedFunction

end TypeFour
