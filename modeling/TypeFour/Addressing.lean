import TypeFour.Stack

/-!
# `TypeFour.Addressing` — the stack in memory

In memory the values of the stack lie side by side, the bottom one in place 0, and the actions that
rearrange them reckon with machine words: counts, places and the number of values are 64 bits wide.
An action is aborted where it reaches for a place that is not there or divides by zero. A sum or
difference that does not fit aborts it in a build with overflow checks; without them it goes on with
the word that is left.

`Stack` has the same actions without words, on stacks and counts of any size.

## Contents
- `Build`, `Ending` — with overflow checks or without, and what an action comes to.
- `add`, `sub`, `checkedSub`, `remEuclid` — arithmetic on words.
- `read`, `swap`, `extendFrom`, `rotateRight` — what is done to the memory.
- `peek`, `dup`, `exch`, `copy`, `index`, `roll` — the actions.
-/

namespace TypeFour.Addressed

/-- Whether arithmetic on words is checked for overflow. -/
inductive Build where
  | checked
  | wrapping
deriving DecidableEq

/-- What an action comes to that is not aborted. -/
abbrev Ending (α : Type) :=
  EStateM.Result Fault Stack α

/-! ## Words -/

/-- A result that may not fit. -/
def fitting (build : Build) (fits : Bool) (word : UInt64) : Option UInt64 :=
  if fits || build = .wrapping then some word else none

def add (build : Build) (a b : UInt64) : Option UInt64 :=
  fitting build (a.toNat + b.toNat < UInt64.size) (a + b)

def sub (build : Build) (a b : UInt64) : Option UInt64 :=
  fitting build (b ≤ a) (a - b)

/-- The difference if it fits, in any build. -/
def checkedSub (a b : UInt64) : Option UInt64 :=
  if b ≤ a then some (a - b) else none

/-- The remainder that is not negative. Nothing is divided by zero, nor the least integer by -1, as
their quotient does not fit. -/
def remEuclid (a b : Int64) : Option Int64 :=
  if b = 0 ∨ (a = Int64.minValue ∧ b = -1) then none else some (.ofInt (a.toInt % b.toInt))

/-! ## Memory -/

/-- How many values there are. -/
def length (s : Stack) : UInt64 :=
  .ofNat s.size

/-- The stack with the values in memory. -/
def holding (values : List Value) (s : Stack) : Stack :=
  { s with items := values.reverse }

/-- The value in a place. -/
def read (place : UInt64) (s : Stack) : Option Value :=
  s.toList[place.toNat]?

/-- Exchanges the values in two places. -/
def swap (i j : UInt64) (s : Stack) : Option Stack := do
  let v ← read i s
  let w ← read j s
  return holding ((s.toList.set i.toNat w).set j.toNat v) s

/-- Copies the values from a place on to the end. -/
def extendFrom (start : UInt64) (s : Stack) : Option Stack :=
  if start.toNat ≤ s.size then some (holding (s.toList ++ s.toList.drop start.toNat) s) else none

/-- Moves the values from a place on by `k` places, the last `k` coming in front of the others. -/
def rotateRight (start k : UInt64) (s : Stack) : Option Stack :=
  let moving := s.toList.drop start.toNat
  let rest := moving.length - k.toNat
  if start.toNat ≤ s.size ∧ k.toNat ≤ moving.length then
    some (holding (s.toList.take start.toNat ++ (moving.drop rest ++ moving.take rest)) s)
  else none

/-! ## Actions -/

/-- The value that has `n` values above it. -/
def peek (build : Build) (n : UInt64) (s : Stack) : Option (Ending Value) := do
  match checkedSub (length s) (← add build n 1) with
  | some place => return .ok (← read place s) s
  | none => return .error .stackUnderflow s

/-- Pushes a value that has been found. -/
def pushFound (found : Option (Ending Value)) : Option (Ending Unit) := do
  match ← found with
  | .ok v s => return Stack.push v s
  | .error f s => return .error f s

/-- Pushes the top value once more. -/
def dup (build : Build) (s : Stack) : Option (Ending Unit) :=
  pushFound (peek build 0 s)

/-- Pushes the value that has `n` values above it once more. -/
def index (build : Build) (n : UInt64) (s : Stack) : Option (Ending Unit) :=
  pushFound (peek build n s)

/-- Exchanges the two top values. -/
def exch (build : Build) (s : Stack) : Option (Ending Unit) :=
  if length s < 2 then some (.error .stackUnderflow s)
  else do
    return .ok () (← swap (← sub build (length s) 1) (← sub build (length s) 2) s)

/-- There is no room for `n` more values. -/
def lacksRoom (build : Build) (n : UInt64) (s : Stack) : Option Bool :=
  match s.limit with
  | none => some false
  | some most => do return most < (← add build (length s) n).toNat

/-- Pushes the `n` top values once more, in the same order. -/
def copy (build : Build) (n : UInt64) (s : Stack) : Option (Ending Unit) :=
  if length s < n then some (.error .stackUnderflow s)
  else do
    if ← lacksRoom build n s then return .error .stackOverflow s
    else return .ok () (← extendFrom (← sub build (length s) n) s)

/-- Moves each of the `n` top values up by `j` places, those that pass the top coming in again
underneath. -/
def roll (build : Build) (n : UInt64) (j : Int64) (s : Stack) : Option (Ending Unit) :=
  if length s < n then some (.error .stackUnderflow s)
  else if n = 0 then some (.ok () s)
  else do
    let k ← remEuclid j n.toInt64
    return .ok () (← rotateRight (← sub build (length s) n) k.toUInt64 s)

end TypeFour.Addressed
