import TypeFour.Operator.Behaviour

/-!
# `TypeFour.Replay` — carrying out recorded instructions

Instructions that push do so; an operator acts on the stack, and when it chooses a procedure that
procedure is replayed before the next instruction. Procedures are ordinary values, so one may come
to replay itself, and nothing in a program bounds how many replays are under way at once. `replay`
therefore takes that number as a bound. Within the bound it ends, as every list of instructions is
finite; a run that would exceed it has no result (`none`), which is not a fault.

## Contents
- `runAll` — a list of instructions, given what one does.
- `perform` — one instruction, given what replaying a procedure does.
- `replay` — a recorded block, with at most `n` replays under way at once.
-/

namespace TypeFour

/-- What carrying out instructions comes to: success or a fault with the stack it leaves, or
nothing when the bound on replays was reached. -/
abbrev Run :=
  Option (EStateM.Result Fault Stack Unit)

/-- One step after the other, up to the first that fails. -/
def runAll (step : Instruction → Stack → Run) : List Instruction → Stack → Run
  | [], s => some (.ok () s)
  | i :: is, s =>
    match step i s with
    | some (.ok () s') => runAll step is s'
    | other => other

/-- An operator, with `again` to replay the procedure it chooses. -/
def execute (e : Elementary) (again : List Instruction → Stack → Run) (op : Operator) (s : Stack) :
    Run :=
  match op.behaviour e with
  | .plain act => some (act s)
  | .choosing choose =>
    match choose s with
    | .ok (some p) s' => again p.body s'
    | .ok none s' => some (.ok () s')
    | .error f s' => some (.error f s')

/-- An instruction, with `again` to replay a procedure that an operator chooses. -/
def perform (e : Elementary) (again : List Instruction → Stack → Run) (i : Instruction)
    (s : Stack) : Run :=
  match i with
  | .number n => some (Stack.push (.number n) s)
  | .boolean b => some (Stack.push (.boolean b) s)
  | .block origin body => some (Stack.push (.procedure ⟨origin, body⟩) s)
  | .operator op => execute e again op s

/-- The instructions of a block in order, with at most `n` replays under way at once, this one
included. -/
def replay (e : Elementary) : Nat → List Instruction → Stack → Run
  | 0, _, _ => none
  | n + 1, body, s => runAll (perform e (replay e n)) body s

end TypeFour
