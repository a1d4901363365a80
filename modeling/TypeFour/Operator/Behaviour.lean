import TypeFour.Binary64.Remainder
import TypeFour.Elementary
import TypeFour.Stack

/-!
# `TypeFour.Operator.Behaviour` — what each operator does to the stack

Operands are taken off from the top down, the last one first. An operator that computes a number
refuses a result that is not finite, save for the few whose results are pushed as they come
(`sqrt`, `mod` and the bitwise operators). The two conditional operators do not run what they
choose: they name the procedure, and the caller replays it.

## Contents
- `Behaviour` — an action, or a choice of a procedure.
- the actions, by group: arithmetic, angles, integers, comparison, logic, conditions.
- `Operator.behaviour` — the behaviour of every operator.
-/

namespace TypeFour

open Stack

/-- What an operator does: act on the stack, or take operands off it and choose the procedure to
replay, if any. -/
inductive Behaviour where
  | plain (action : Action Unit)
  | choosing (choice : Action (Option Procedure))

namespace Behaviour

/-! ## Shapes of operators -/

/-- Pushes a computed number, which has to be finite. -/
def pushResult (n : Float) : Action Unit :=
  if n.isFinite then push (.number n) else throw .undefinedResult

/-- A number computed from one. -/
def unary (f : Float → Float) : Action Unit := do
  let n ← popNumber
  pushResult (f n)

/-- A number computed from two, the lower one first. -/
def binary (f : Float → Float → Float) : Action Unit := do
  let n₂ ← popNumber
  let n₁ ← popNumber
  pushResult (f n₁ n₂)

/-- A number computed from two, the upper one not zero. -/
def quotient (f : Float → Float → Float) : Action Unit := do
  let n₂ ← popNumber
  let n₁ ← popNumber
  if n₂ == 0 then throw .undefinedResult
  pushResult (f n₁ n₂)

/-- A truth about two numbers. -/
def comparison (r : Float → Float → Bool) : Action Unit := do
  let n₂ ← popNumber
  let n₁ ← popNumber
  push (.boolean (r n₁ n₂))

/-! ## Arithmetic -/

/-- The remainder of two integer parts, with the sign of the lower one. There is none by zero,
nor of the least integer by minus one, as their quotient is no 64-bit integer. -/
def modulo : Action Unit := do
  let i₂ ← popInteger
  let i₁ ← popInteger
  if i₂ = 0 ∨ (i₁ = Int64.minValue ∧ i₂ = -1) then throw .undefinedResult
  push (.number (Binary64.ofInt64 (i₁ % i₂)))

/-- The square root of a number that is not negative, pushed as it comes. -/
def squareRoot (sqrt : Float → Float) : Action Unit := do
  let n ← popNumber
  if n < 0 then throw .rangeCheck
  push (.number (sqrt n))

/-- A logarithm of a positive number. -/
def logarithm (log : Float → Float) : Action Unit := do
  let n ← popNumber
  if n ≤ 0 then throw .rangeCheck
  pushResult (log n)

/-! ## Angles -/

/-- An angle in degrees turned into radians, by the float nearest to `π / 180`. -/
def radians (x : Float) : Float :=
  x * Float.ofBits 0x3f91df46a2529d39

/-- An angle in radians turned into degrees, by the float nearest to `180 / π`. -/
def degrees (x : Float) : Float :=
  x * Float.ofBits 0x404ca5dc1a63c1f8

/-- The angle in degrees brought into `[0, 360)`. The remainder of a tiny negative angle rounds up
to a full turn, which is no turn. -/
def withinTurn (x : Float) : Float :=
  let angle := Binary64.positiveRemainder x 360
  if angle ≥ 360 then 0 else angle

/-- The angle whose tangent is the quotient of two numbers, in the quadrant of their signs. The
origin has no angle. -/
def arctangent (atan2 : Float → Float → Float) : Action Unit := do
  let den ← popNumber
  let num ← popNumber
  if num == 0 && den == 0 then throw .undefinedResult
  pushResult (withinTurn (degrees (atan2 num den)))

/-! ## Logic and bits -/

/-- Logical on two booleans, bitwise on the integer parts of two numbers. -/
def logical (onBooleans : Bool → Bool → Bool) (onIntegers : Int64 → Int64 → Int64) :
    Action Unit := do
  match ← pop with
  | .boolean b₂ =>
    let b₁ ← popBoolean
    push (.boolean (onBooleans b₁ b₂))
  | .number n₂ =>
    let i₁ ← popInteger
    push (.number (Binary64.ofInt64 (onIntegers i₁ (Binary64.toInt64 n₂))))
  | .procedure _ => throw .typeCheck

/-- The negation of a boolean, or the bitwise complement of an integer part. -/
def negation : Action Unit := do
  match ← pop with
  | .boolean b => push (.boolean (!b))
  | .number n => push (.number (Binary64.ofInt64 (~~~Binary64.toInt64 n)))
  | .procedure _ => throw .typeCheck

/-- The 32 bits moved toward the high end by `k` places, or toward the low end by `-k`; what
leaves the word is lost, and zeros come in. -/
def shifted (bits : UInt32) (k : Int64) : UInt32 :=
  if 0 ≤ k ∧ k < 32 then bits <<< UInt32.ofNat k.toNatClampNeg
  else if -32 < k ∧ k < 0 then bits >>> UInt32.ofNat (-k).toNatClampNeg
  else 0

/-- A shift of an integer part, which has to fit 32 bits with its sign. -/
def shift : Action Unit := do
  let k ← popInteger
  let i ← popInteger
  if i < Int32.minValue.toInt64 ∨ Int32.maxValue.toInt64 < i then throw .rangeCheck
  let bits := shifted i.toInt32.toUInt32 k
  push (.number (Binary64.ofInt64 bits.toInt32.toInt64))

/-- Whether two values are the same, or whether they differ when `negated`. -/
def equality (negated : Bool) : Action Unit := do
  let b ← pop
  let a ← pop
  push (.boolean ((a == b) != negated))

/-! ## Stack and conditions -/

/-- A rearrangement by a number of values that is on the stack. -/
def counted (act : Nat → Action Unit) : Action Unit := do
  let n ← popCount
  act n

/-- `roll`, with both its numbers on the stack. -/
def rolled : Action Unit := do
  let j ← popInteger
  let n ← popCount
  roll n j.toInt

/-- The procedure, when the boolean under it is true. -/
def chooseIf : Action (Option Procedure) := do
  let p ← popProcedure
  let b ← popBoolean
  return if b then some p else none

/-- The lower procedure or the upper one, as the boolean under them is true or false. -/
def chooseIfElse : Action (Option Procedure) := do
  let p₂ ← popProcedure
  let p₁ ← popProcedure
  let b ← popBoolean
  return some (if b then p₁ else p₂)

end Behaviour

open Behaviour

/-- What an operator does. The braces are dealt with before they get here and do nothing on their
own; `noOp` does nothing anywhere. -/
def Operator.behaviour (e : Elementary) : Operator → Behaviour
  | abs => .plain (unary Float.abs)
  | add => .plain (binary (· + ·))
  | atan => .plain (arctangent e.atan2)
  | ceiling => .plain (unary Binary64.ceiling)
  | cos => .plain (unary fun x => e.cos (radians x))
  | cvi => .plain (unary Binary64.truncate)
  | cvr => .plain (unary id)
  | div => .plain (quotient (· / ·))
  | exp => .plain (binary e.pow)
  | floor => .plain (unary Binary64.floor)
  | idiv => .plain (quotient fun m n => Binary64.truncate (m / n))
  | ln => .plain (logarithm e.ln)
  | log => .plain (logarithm e.log10)
  | mod => .plain modulo
  | mul => .plain (binary (· * ·))
  | neg => .plain (unary (- ·))
  | round => .plain (unary Binary64.roundHalfUp)
  | sin => .plain (unary fun x => e.sin (radians x))
  | sqrt => .plain (squareRoot e.sqrt)
  | sub => .plain (binary (· - ·))
  | truncate => .plain (unary Binary64.truncate)
  | and => .plain (logical (· && ·) (· &&& ·))
  | bitshift => .plain shift
  | eq => .plain (equality false)
  | ge => .plain (comparison fun m n => m ≥ n)
  | gt => .plain (comparison fun m n => m > n)
  | le => .plain (comparison fun m n => m ≤ n)
  | lt => .plain (comparison fun m n => m < n)
  | ne => .plain (equality true)
  | not => .plain negation
  | or => .plain (logical (· || ·) (· ||| ·))
  | xor => .plain (logical (· ^^ ·) (· ^^^ ·))
  | ifTrue => .choosing chooseIf
  | ifElse => .choosing chooseIfElse
  | copy => .plain (counted Stack.copy)
  | dup => .plain Stack.dup
  | exch => .plain Stack.exch
  | index => .plain (counted Stack.index)
  | pop => .plain (do let _ ← Stack.pop)
  | roll => .plain rolled
  | openBrace | closeBrace | noOp => .plain (pure ())

end TypeFour
