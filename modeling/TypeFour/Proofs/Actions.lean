import TypeFour.Operator.Behaviour

/-!
# `TypeFour.Proofs.Actions` — what operators are put together from

Six actions touch the stack: `push`, `copy`, `pop`, `peek`, `exch` and `roll`. An operator does some of them,
one after the other, looks at what it has taken off, and may refuse it. This is said once (`Composed`). So what
holds of the six and of refusals, and what sequences keep, is shown of every operator by induction.

Of the six only `push` and `copy` make the stack higher. The typed pops, and the choice of a procedure, do
neither.

## Contents
- `Fault.isRefusal` — the faults that operators raise themselves.
- `Composed` — actions put together from the six, those that push apart.
- `Composed.popNumber`, … — typed pops; `Composed.unary`, … — the shapes of operators.
- `behaviour_composed`, `composed_of_plain`, `composed_of_choosing` — every operator.
-/

namespace TypeFour

/-- A fault that operators raise themselves, on account of an operand or of the result. -/
def Fault.isRefusal : Fault → Bool
  | typeCheck | rangeCheck | undefinedResult => true
  | _ => false

/-- The action is put together from primitive ones. It makes the stack higher only if it `pushes`. -/
inductive Composed (pushes : Prop) : {α : Type} → Action α → Prop where
  | push (h : pushes) (v : Value) : Composed pushes (Stack.push v)
  | copy (h : pushes) (n : Nat) : Composed pushes (Stack.copy n)
  | pop : Composed pushes Stack.pop
  | peek (n : Nat) : Composed pushes (Stack.peek n)
  | exch : Composed pushes Stack.exch
  | roll (n : Nat) (j : Int) : Composed pushes (Stack.roll n j)
  | pure {α : Type} (a : α) : Composed pushes (Pure.pure a : Action α)
  | throw {α : Type} {f : Fault} : f.isRefusal = true → Composed pushes (MonadExcept.throw f : Action α)
  | bind {α β : Type} {m : Action α} {k : α → Action β} :
      Composed pushes m → (∀ a, Composed pushes (k a)) → Composed pushes (m >>= k)

namespace Composed

variable {pushes : Prop} {α : Type}

theorem ite {c : Prop} [Decidable c] {m m' : Action α} (h : Composed pushes m) (h' : Composed pushes m') :
    Composed pushes (if c then m else m') := by
  by_cases hc : c
  · rwa [if_pos hc]
  · rwa [if_neg hc]

/-- A fault in place of the rest. -/
theorem guarded {c : Prop} [Decidable c] {f : Fault} (hf : f.isRefusal = true) {rest : Action α}
    (h : Composed pushes rest) : Composed pushes (if c then (do MonadExcept.throw f; rest) else rest) :=
  .ite (.bind (.throw hf) fun _ => h) h

/-! ### Typed pops -/

theorem popNumber : Composed pushes Stack.popNumber := by
  apply Composed.bind .pop
  intro v
  cases v with
  | number n => exact .pure n
  | boolean b => exact .throw rfl
  | procedure p => exact .throw rfl

theorem popBoolean : Composed pushes Stack.popBoolean := by
  apply Composed.bind .pop
  intro v
  cases v with
  | number n => exact .throw rfl
  | boolean b => exact .pure b
  | procedure p => exact .throw rfl

theorem popProcedure : Composed pushes Stack.popProcedure := by
  apply Composed.bind .pop
  intro v
  cases v with
  | number n => exact .throw rfl
  | boolean b => exact .throw rfl
  | procedure p => exact .pure p

theorem popInteger : Composed pushes Stack.popInteger :=
  .bind .popNumber fun _ => .pure _

theorem popCount : Composed pushes Stack.popCount :=
  .bind .popInteger fun _ => .guarded rfl (.pure _)

/-! ### Choices and rearrangements -/

theorem chooseIf : Composed pushes Behaviour.chooseIf :=
  .bind .popProcedure fun _ => .bind .popBoolean fun _ => .pure _

theorem chooseIfElse : Composed pushes Behaviour.chooseIfElse :=
  .bind .popProcedure fun _ => .bind .popProcedure fun _ => .bind .popBoolean fun _ => .pure _

theorem counted {act : Nat → Action Unit} (h : ∀ n, Composed pushes (act n)) :
    Composed pushes (Behaviour.counted act) :=
  .bind .popCount h

theorem rolled : Composed pushes Behaviour.rolled :=
  .bind .popInteger fun _ => .bind .popCount fun _ => .roll _ _

theorem index (n : Nat) : Composed True (Stack.index n) :=
  .bind (.peek n) fun _ => .push trivial _

/-! ### Operators that compute, by shape -/

theorem pushNumbers (ns : List Float) : Composed True (Stack.pushNumbers ns) := by
  induction ns with
  | nil => exact .pure ()
  | cons n ns ih => exact .bind (.push trivial _) fun _ => ih

theorem pushResult (n : Float) : Composed True (Behaviour.pushResult n) :=
  .ite (.push trivial _) (.throw rfl)

theorem unary (f : Float → Float) : Composed True (Behaviour.unary f) :=
  .bind .popNumber fun _ => .pushResult _

theorem binary (f : Float → Float → Float) : Composed True (Behaviour.binary f) :=
  .bind .popNumber fun _ => .bind .popNumber fun _ => .pushResult _

theorem quotient (f : Float → Float → Float) : Composed True (Behaviour.quotient f) :=
  .bind .popNumber fun _ => .bind .popNumber fun _ => .guarded rfl (.pushResult _)

theorem comparison (r : Float → Float → Bool) : Composed True (Behaviour.comparison r) :=
  .bind .popNumber fun _ => .bind .popNumber fun _ => .push trivial _

theorem modulo : Composed True Behaviour.modulo :=
  .bind .popInteger fun _ => .bind .popInteger fun _ => .guarded rfl (.push trivial _)

theorem squareRoot (sqrt : Float → Float) : Composed True (Behaviour.squareRoot sqrt) :=
  .bind .popNumber fun _ => .guarded rfl (.push trivial _)

theorem logarithm (log : Float → Float) : Composed True (Behaviour.logarithm log) :=
  .bind .popNumber fun _ => .guarded rfl (.pushResult _)

theorem arctangent (atan2 : Float → Float → Float) : Composed True (Behaviour.arctangent atan2) :=
  .bind .popNumber fun _ => .bind .popNumber fun _ => .guarded rfl (.pushResult _)

theorem shift : Composed True Behaviour.shift :=
  .bind .popInteger fun _ => .bind .popInteger fun _ => .guarded rfl (.push trivial _)

theorem equality (negated : Bool) : Composed True (Behaviour.equality negated) :=
  .bind .pop fun _ => .bind .pop fun _ => .push trivial _

theorem logical (onBooleans : Bool → Bool → Bool) (onIntegers : Int64 → Int64 → Int64) :
    Composed True (Behaviour.logical onBooleans onIntegers) := by
  apply Composed.bind .pop
  intro v
  cases v with
  | number n => exact .bind .popInteger fun _ => .push trivial _
  | boolean b => exact .bind .popBoolean fun _ => .push trivial _
  | procedure p => exact .throw rfl

theorem negation : Composed True Behaviour.negation := by
  apply Composed.bind .pop
  intro v
  cases v with
  | number n => exact .push trivial _
  | boolean b => exact .push trivial _
  | procedure p => exact .throw rfl

end Composed

/-! ## Every operator -/

/-- What an operator does is put together from primitive actions, and its choice of a procedure from those that
push nothing. -/
def Behaviour.Composed : Behaviour → Prop
  | plain act => TypeFour.Composed True act
  | choosing choice => TypeFour.Composed False choice

open Composed in
/-- **Every operator** is put together from primitive actions. -/
theorem behaviour_composed (e : Elementary) (op : Operator) : (op.behaviour e).Composed := by
  cases op with
  | abs | ceiling | cos | cvi | cvr | floor | neg | round | sin | truncate => exact unary _
  | add | exp | mul | sub => exact binary _
  | div | idiv => exact quotient _
  | ge | gt | le | lt => exact comparison _
  | ln | log => exact logarithm _
  | and | or | xor => exact logical _ _
  | eq | ne => exact equality _
  | atan => exact arctangent _
  | mod => exact modulo
  | sqrt => exact squareRoot _
  | bitshift => exact shift
  | not => exact negation
  | ifTrue => exact chooseIf
  | ifElse => exact chooseIfElse
  | copy => exact counted (copy trivial)
  | dup => exact index 0
  | exch => exact exch
  | index => exact counted index
  | pop => exact .bind pop fun _ => .pure ()
  | roll => exact rolled
  | openBrace | closeBrace | noOp => exact .pure ()

section

variable {e : Elementary} {op : Operator}

theorem composed_of_plain {act : Action Unit} (h : op.behaviour e = .plain act) : Composed True act := by
  have hop := behaviour_composed e op
  rwa [h] at hop

theorem composed_of_choosing {choice : Action (Option Procedure)} (h : op.behaviour e = .choosing choice) :
    Composed False choice := by
  have hop := behaviour_composed e op
  rwa [h] at hop

end

end TypeFour
