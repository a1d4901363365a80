import TypeFour.Reader
import TypeFour.Replay
import TypeFour.Token

/-!
# `TypeFour.Session` — executing and recording

A session works through the tokens of a program. Tokens inside one pair of braces, or none, are
executed as they come. An inner brace opens a recording: until it is closed, numbers, booleans,
operators and blocks go into it instead of being executed. A recording that is closed is a
procedure, which goes where any other value would go: into the recording around it, or onto the
stack.

## Contents
- `Recording` — a block being recorded.
- `Session` — stack, recordings, depth.
- `deliver`, `operate`, `openBlock`, `closeBlock`, `accept` — one token.
- `closeAround`, `closeAll`, `finish` — the end of the data.
- `Outcome`, `evaluate` — a whole program.
-/

namespace TypeFour

/-- A block whose closing brace has not been met: the number of its opening brace, and its
instructions, the latest first. -/
structure Recording where
  origin : Nat
  latest : List Instruction := []

/-- One more instruction. -/
def Recording.add (r : Recording) (i : Instruction) : Recording :=
  { r with latest := i :: r.latest }

/-- The procedure that has been recorded. -/
def Recording.toProcedure (r : Recording) : Procedure where
  origin := r.origin
  body := r.latest.reverse

/-- The state between two tokens. -/
structure Session where
  stack : Stack
  /-- The blocks being recorded, the innermost first. -/
  recordings : List Recording := []
  /-- How many braces are open; the outermost one records nothing. -/
  depth : Nat := 0
  /-- How many braces have been opened so far, which numbers the next one. -/
  opened : Nat := 0

/-- What an evaluation comes to: a result or a fault, or nothing when the bound on replays was
reached. -/
abbrev Outcome (α : Type) :=
  Option (Except Fault α)

/-- An action on the stack without the stack that a failure leaves. -/
def Action.outcome {α : Type} (act : Action α) (s : Stack) : Except Fault Stack :=
  match act s with
  | .ok _ s' => .ok s'
  | .error f _ => .error f

namespace Session

/-! ## One token -/

/-- Records a value in the innermost recording, or pushes it when there is none. -/
def deliver (v : Value) (s : Session) : Except Fault Session :=
  match s.recordings with
  | r :: rs => .ok { s with recordings := r.add v.toInstruction :: rs }
  | [] => (Action.outcome (Stack.push v) s.stack).map fun stack => { s with stack }

/-- Records an operator in the innermost recording, or executes it when there is none. -/
def operate (e : Elementary) (n : Nat) (op : Operator) (s : Session) : Outcome Session :=
  match s.recordings with
  | r :: rs => some (.ok { s with recordings := r.add (.operator op) :: rs })
  | [] =>
    match execute e (replay e n) op s.stack with
    | none => none
    | some (.ok _ stack) => some (.ok { s with stack })
    | some (.error f _) => some (.error f)

/-- An opening brace. Braces may only nest so deep; all but the outermost open a recording. -/
def openBlock (o : Options) (s : Session) : Except Fault Session :=
  if o.maxNestingDepth ≤ s.depth then .error .limitCheck
  else
    .ok { s with
      depth := s.depth + 1
      opened := s.opened + 1
      recordings := if s.depth = 0 then s.recordings else ⟨s.opened, []⟩ :: s.recordings }

/-- A closing brace. One that no open brace belongs to is passed over or a fault; the outermost
one closes no recording. -/
def closeBlock (o : Options) (s : Session) : Except Fault Session :=
  match s.depth with
  | 0 =>
    match o.unknownTokens with
    | .strict => .error .unmatchedClose
    | .lenient => .ok s
  | 1 => .ok { s with depth := 0 }
  | d + 2 =>
    match s.recordings with
    -- does not arise: every open brace but the outermost has a recording
    | [] => .ok { s with depth := d + 1 }
    | r :: rs =>
      (deliver (.procedure r.toProcedure) { s with recordings := rs }).map fun s' =>
        { s' with depth := d + 1 }

/-- One token, with at most `n` replays under way at once. -/
def accept (e : Elementary) (n : Nat) (o : Options) (t : Token) (s : Session) : Outcome Session :=
  match t with
  | .number x => some (s.deliver (.number x))
  | .boolean b => some (s.deliver (.boolean b))
  | .operator .openBrace => some (s.openBlock o)
  | .operator .closeBrace => some (s.closeBlock o)
  | .operator op => s.operate e n op

/-! ## All tokens -/

/-- Works through words in order, up to the first that fails. -/
def run (e : Elementary) (n : Nat) (o : Options) : List Word → Session → Outcome Session
  | [], s => some (.ok s)
  | w :: ws, s =>
    match Token.ofWord o.unknownTokens w with
    | .error f => some (.error f)
    | .ok t =>
      match s.accept e n o t with
      | some (.ok s') => run e n o ws s'
      | other => other

/-- Delivers a procedure into the recordings around it, closing each of them in turn; the procedure
that the outermost one becomes is pushed. -/
def closeAround (p : Procedure) : List Recording → Action Unit
  | [] => Stack.push (.procedure p)
  | r :: rs => closeAround (r.add (Value.procedure p).toInstruction).toProcedure rs

/-- Closes all recordings, the innermost first. -/
def closeAll : List Recording → Action Unit
  | [] => pure ()
  | r :: rs => closeAround r.toProcedure rs

/-- The stack at the end of the data. Braces still open are closed or a fault. -/
def finish (o : Options) (s : Session) : Except Fault Stack :=
  if s.depth = 0 then .ok s.stack
  else
    match o.truncatedInput with
    | .fail => .error (.truncated s.depth)
    | .tolerate => Action.outcome (closeAll s.recordings) s.stack

end Session

/-- A transcript worked through on a stack that holds the inputs: its words, and then the fault
that stopped the reading or the end of the data. -/
def Transcript.evaluate (e : Elementary) (n : Nat) (o : Options) (t : Transcript) (stack : Stack) :
    Outcome Stack :=
  (Session.run e n o t.words { stack }).map fun result => do
    let s ← result
    match t.fault with
    | some f => .error f
    | none => s.finish o

/-- Evaluates the program that a source delivers on some inputs, with at most `n` replays under way
at once. The inputs are pushed before anything is read. -/
def evaluate (e : Elementary) (n : Nat) (o : Options) (source : Source) (inputs : List Float) :
    Outcome Stack :=
  match Action.outcome (Stack.pushNumbers inputs) { limit := o.maxStackDepth } with
  | .error f => some (.error f)
  | .ok stack => (Reader.ofSource o.bufferCapacity source).transcript.evaluate e n o stack

end TypeFour
