import TypeFour.Fault
import TypeFour.Operator

/-!
# `TypeFour.Value` — values, instructions and procedures

A procedure is a block of the program that was recorded instead of being executed. It holds a list
of instructions: numbers and booleans to push, operators to carry out, and inner blocks to push as
procedures in their turn.

Every block keeps its origin, the number of its opening brace in the program. Procedures are the
same value when they come from the same brace, however often they have been copied since, and
never merely because two blocks read alike.

## Contents
- `Instruction`, `Procedure`, `Value`.
- `Value.toInstruction` — the instruction that pushes a value.
- the comparison `==` of values and of instructions.
-/

namespace TypeFour

/-- One step of a recorded block. -/
inductive Instruction where
  | number (n : Float)
  | boolean (b : Bool)
  | block (origin : Nat) (body : List Instruction)
  | operator (op : Operator)

/-- A recorded block, as a value. -/
structure Procedure where
  origin : Nat
  body : List Instruction

/-- What the operand stack holds. -/
inductive Value where
  | number (n : Float)
  | boolean (b : Bool)
  | procedure (p : Procedure)

/-- The instruction that pushes a value. -/
def Value.toInstruction : Value → Instruction
  | number n => .number n
  | boolean b => .boolean b
  | procedure p => .block p.origin p.body

namespace Value

/-! ## Views -/

/-- The number that a value is, if it is one. -/
def asNumber? : Value → Option Float
  | number n => some n
  | _ => none

/-- The boolean that a value is, if it is one. -/
def asBoolean? : Value → Option Bool
  | boolean b => some b
  | _ => none

/-- The value is a procedure. -/
def isProcedure : Value → Bool
  | procedure _ => true
  | _ => false

/-- The number that a value is; any other value has the wrong kind. -/
def toNumber : Value → Except Fault Float
  | number n => .ok n
  | _ => .error .typeCheck

end Value

/-! ## Comparison -/

/-- Numbers compare as floats, so that not-a-number differs from itself and the two zeros are
equal; procedures compare by origin; values of different kinds differ. -/
instance : BEq Value where
  beq
    | .number m, .number n => m == n
    | .boolean a, .boolean b => a == b
    | .procedure p, .procedure q => p.origin == q.origin
    | _, _ => false

/-- Instructions that push compare as the values they push. -/
instance : BEq Instruction where
  beq
    | .number m, .number n => m == n
    | .boolean a, .boolean b => a == b
    | .block o _, .block p _ => o == p
    | .operator a, .operator b => a == b
    | _, _ => false

end TypeFour
