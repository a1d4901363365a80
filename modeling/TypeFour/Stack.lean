import TypeFour.Binary64.Integer
import TypeFour.Value

/-!
# `TypeFour.Stack` — the operand stack

The stack holds values, the top one first, and may have a limit on how many. An action either
gives a result or fails, and leaves a stack in both cases: what an action has taken off before it
fails stays off. Actions that look before they take (`peek`, `dup`, `exch`, `copy`, `index`,
`roll`) fail without changing anything.

## Contents
- `Stack`, `Action`.
- `push`, `pop` and the typed pops.
- `peek`, `dup`, `exch`, `index`, `copy`, `roll` — the rearrangements.
- `Stack.toList`, `Stack.toNumbers` — the contents from the bottom up.
- `Action.bind_of_ok`, `Action.error_of_bind`, … — one action after another.
-/

namespace TypeFour

/-- The operand stack, its top value first. Without a limit it holds any number of values. -/
structure Stack where
  items : List Value := []
  limit : Option Nat := none

/-- What is done to the stack: a result or a fault, and in either case the stack left behind. -/
abbrev Action (α : Type) := EStateM Fault Stack α

namespace Stack

/-- How many values there are. -/
def size (s : Stack) : Nat :=
  s.items.length

/-- There is room for `n` more values. -/
def hasRoom (s : Stack) (n : Nat) : Bool :=
  match s.limit with
  | none => true
  | some m => s.size + n ≤ m

/-- The values from the bottom up. -/
def toList (s : Stack) : List Value :=
  s.items.reverse

/-- The numbers from the bottom up; any other value has the wrong kind. -/
def toNumbers (s : Stack) : Except Fault (List Float) :=
  s.toList.mapM Value.toNumber

/-! ## Pushing and popping -/

/-- Puts a value on top. -/
def push (v : Value) : Action Unit := fun s =>
  if s.hasRoom 1 then .ok () { s with items := v :: s.items } else .error .stackOverflow s

/-- Puts the numbers on top, one after the other. -/
def pushNumbers : List Float → Action Unit
  | [] => pure ()
  | n :: ns => do
    push (.number n)
    pushNumbers ns

/-- Takes the top value off. -/
def pop : Action Value := fun s =>
  match s.items with
  | [] => .error .stackUnderflow s
  | v :: rest => .ok v { s with items := rest }

/-- Takes a number off. -/
def popNumber : Action Float := do
  match ← pop with
  | .number n => return n
  | _ => throw .typeCheck

/-- Takes a boolean off. -/
def popBoolean : Action Bool := do
  match ← pop with
  | .boolean b => return b
  | _ => throw .typeCheck

/-- Takes a procedure off. -/
def popProcedure : Action Procedure := do
  match ← pop with
  | .procedure p => return p
  | _ => throw .typeCheck

/-- Takes a number off and keeps its integer part. -/
def popInteger : Action Int64 := do
  return Binary64.toInt64 (← popNumber)

/-- Takes a number of values off, which is not negative. -/
def popCount : Action Nat := do
  let n ← popInteger
  if n < 0 then throw .rangeCheck
  return n.toNatClampNeg

/-! ## Rearranging -/

/-- The value that has `n` values above it. -/
def peek (n : Nat) : Action Value := fun s =>
  match s.items[n]? with
  | some v => .ok v s
  | none => .error .stackUnderflow s

/-- Pushes the top value once more. -/
def dup : Action Unit := do
  push (← peek 0)

/-- Exchanges the two top values. -/
def exch : Action Unit := fun s =>
  match s.items with
  | a :: b :: rest => .ok () { s with items := b :: a :: rest }
  | _ => .error .stackUnderflow s

/-- Pushes the value that has `n` values above it once more. -/
def index (n : Nat) : Action Unit := do
  push (← peek n)

/-- Pushes the `n` top values once more, in the same order; all of them or none. -/
def copy (n : Nat) : Action Unit := fun s =>
  if s.size < n then .error .stackUnderflow s
  else if s.hasRoom n then .ok () { s with items := s.items.take n ++ s.items }
  else .error .stackOverflow s

/-- Moves each of the `n` top values up by `j` places, those that pass the top coming in again
underneath; a negative `j` moves down. -/
def roll (n : Nat) (j : Int) : Action Unit := fun s =>
  if s.size < n then .error .stackUnderflow s
  else
    let window := s.items.take n
    let k := (j % n).toNat
    .ok () { s with items := window.drop k ++ window.take k ++ s.items.drop n }

end Stack

/-! ## One action after another -/

namespace Action

variable {α β : Type} {m : Action α} {k : α → Action β} {s t u : Stack} {a : α} {b : β} {f : Fault}

theorem bind_of_ok (h : m s = .ok a t) : (m >>= k) s = k a t := by
  show EStateM.bind m k s = k a t
  rw [EStateM.bind, h]

theorem bind_of_error (h : m s = .error f t) : (m >>= k) s = .error f t := by
  show EStateM.bind m k s = .error f t
  rw [EStateM.bind, h]

/-- When both succeed, so has the first. -/
theorem ok_of_bind (h : (m >>= k) s = .ok b u) : ∃ a t, m s = .ok a t ∧ k a t = .ok b u := by
  cases hm : m s with
  | ok a t =>
    rw [bind_of_ok hm] at h
    exact ⟨a, t, rfl, h⟩
  | error f t =>
    rw [bind_of_error hm] at h
    cases h

/-- When they fail, the first has failed, or it has succeeded and the second has failed. -/
theorem error_of_bind (h : (m >>= k) s = .error f u) :
    m s = .error f u ∨ ∃ a t, m s = .ok a t ∧ k a t = .error f u := by
  cases hm : m s with
  | ok a t =>
    rw [bind_of_ok hm] at h
    exact .inr ⟨a, t, rfl, h⟩
  | error g t =>
    rw [bind_of_error hm] at h
    cases h
    exact .inl rfl

end Action

namespace Stack

variable {s : Stack} {n : Nat} {v : Value}

theorem index_of_getElem? (hv : s.items[n]? = some v) : index n s = push v s := by
  have hpeek : peek n s = .ok v s := by rw [peek, hv]
  exact Action.bind_of_ok hpeek

theorem index_of_le (h : s.size ≤ n) : index n s = .error .stackUnderflow s := by
  have hpeek : peek n s = .error .stackUnderflow s := by rw [peek, List.getElem?_eq_none h]
  exact Action.bind_of_error hpeek

end Stack

end TypeFour
