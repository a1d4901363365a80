import TypeFour.Proofs.Phrase
import TypeFour.Proofs.Simulation

/-!
# `TypeFour.Proofs.Structured` — conditionals without procedures

Most programs use blocks for one thing only: each stands right before the `if` or `ifelse` that is to replay
it. Such a program has a meaning that never speaks of procedures (`Body.run`): a conditional takes a boolean
off the stack and goes on with the text of one branch or the other. Recording the branches, pushing them and
replaying one of them comes to the same, errors included.

## Contents
- `Body`, `Body.run` — structured bodies, and their direct meaning.
- `Body.phrase` — their text.
- `execute_ifTrue`, `execute_ifElse` — a conditional whose branches have just been pushed.
- `runAll_phrase` — instructions against direct meaning; `evaluate_body` — whole programs.
- `not_evaluate_body_largest` — a buffer without room.
-/

namespace TypeFour

variable {e : Elementary}

/-! ## Structured bodies -/

/-- An operator that is neither a conditional nor a brace. -/
def Operator.isSimple : Operator → Bool
  | .ifTrue | .ifElse | .openBrace | .closeBrace => false
  | _ => true

/-- What an operator does to the stack, when it is no conditional. -/
def Operator.act (e : Elementary) (op : Operator) : Action Unit :=
  match op.behaviour e with
  | .plain act => act
  | .choosing _ => pure ()

/-- A body in which blocks stand only where a conditional follows: `{yes} if` and `{yes} {no} ifelse`. -/
inductive Body where
  | done
  | number (x : Float) (rest : Body)
  | boolean (b : Bool) (rest : Body)
  | operator (op : Operator) (simple : op.isSimple = true) (rest : Body)
  | ifTrue (yes rest : Body)
  | ifElse (yes no rest : Body)

/-- Takes a boolean off and goes on with one branch or the other. -/
def branch (yes no : Action Unit) : Action Unit := do
  if ← Stack.popBoolean then yes else no

namespace Body

/-- **Direct meaning.** No procedure is made: a conditional takes a boolean off, and one of its branches
is run where it stands. -/
def run (e : Elementary) : Body → Action Unit
  | done => pure ()
  | number x rest => do
    Stack.push (.number x)
    rest.run e
  | boolean b rest => do
    Stack.push (.boolean b)
    rest.run e
  | operator op _ rest => do
    op.act e
    rest.run e
  | ifTrue yes rest => do
    branch (yes.run e) (pure ())
    rest.run e
  | ifElse yes no rest => do
    branch (yes.run e) (no.run e)
    rest.run e

theorem isBrace_of_isSimple {op : Operator} (h : op.isSimple = true) :
    (Token.operator op).isBrace = false := by
  cases op with
  | openBrace => cases h
  | closeBrace => cases h
  | _ => rfl

/-- The text of a body. -/
def phrase : Body → Phrase
  | done => .nil
  | number x rest => .token (.number x) rfl rest.phrase
  | boolean b rest => .token (.boolean b) rfl rest.phrase
  | operator op simple rest => .token (.operator op) (isBrace_of_isSimple simple) rest.phrase
  | ifTrue yes rest => .block yes.phrase (.token (.operator .ifTrue) rfl rest.phrase)
  | ifElse yes no rest =>
    .block yes.phrase (.block no.phrase (.token (.operator .ifElse) rfl rest.phrase))

end Body

/-! ## The limit stays absent -/

namespace Simulation

variable (σ : Simulation)

theorem act (op : Operator) : σ.KeptBy (op.act e) := by
  have hop := σ.behaviour e op
  unfold Operator.act
  cases hb : op.behaviour e with
  | plain act =>
    rw [hb] at hop
    cases hop with
    | plain h => exact h
  | choosing choice => exact .pure rfl

theorem branch {yes no : Action Unit} (hyes : σ.KeptBy yes) (hno : σ.KeptBy no) :
    σ.KeptBy (branch yes no) :=
  σ.seq σ.popBoolean fun _ => .ite hyes hno

/-- The direct meaning keeps whatever the primitive actions keep. -/
theorem run (body : Body) : σ.KeptBy (body.run e) := by
  induction body with
  | done => exact .pure rfl
  | number x rest ih => exact σ.seq (σ.push_number x) fun _ => ih
  | boolean b rest ih => exact σ.seq (σ.push_boolean b) fun _ => ih
  | operator op simple rest ih => exact σ.seq (σ.act op) fun _ => ih
  | ifTrue yes rest ihy ihr => exact σ.seq (σ.branch ihy (.pure rfl)) fun _ => ihr
  | ifElse yes no rest ihy ihn ihr => exact σ.seq (σ.branch ihy ihn) fun _ => ihr

end Simulation

/-- An action that keeps every such relation leaves the limit of the stack as it was. -/
theorem Stack.limit_eq {α : Type} {act : Action α} (h : ∀ σ : Simulation, σ.KeptBy act) {s t : Stack}
    {a : α} (hact : act s = .ok a t) : t.limit = s.limit := by
  have hs : s.All (fun _ => True) s.limit := ⟨fun v _ => by cases v <;> trivial, rfl⟩
  exact (hs.of_keptBy (h _) hact).limit

/-! ## Instructions against direct meaning -/

/-- An instruction that comes to an action, and then the others. The instruction may start from a stack
with operands that the action does not know. -/
theorem runAll_cons_action {step : Instruction → Stack → Run} {i : Instruction}
    {is : List Instruction} {s t : Stack} {act next : Action Unit} (hi : step i t = some (act s))
    (hnext : ∀ u, act s = .ok () u → runAll step is u = some (next u)) :
    runAll step (i :: is) t = some ((act >>= fun _ => next) s) := by
  rw [runAll, hi]
  cases ha : act s with
  | ok _ u =>
    rw [Action.bind_of_ok ha]
    exact hnext u ha
  | error f u => rw [Action.bind_of_error ha]

theorem execute_simple {again : List Instruction → Stack → Run} {op : Operator}
    (h : op.isSimple = true) (s : Stack) : execute e again op s = some (op.act e s) := by
  cases op with
  | ifTrue | ifElse | openBrace | closeBrace => cases h
  | _ => rfl

section Conditional

variable {again : List Instruction → Stack → Run} {s : Stack} {p q : Procedure}
  {yes no : Action Unit}

/-- **`if`** with the procedure on top, where replaying it comes to `yes`. -/
theorem execute_ifTrue
    (hyes : ∀ t, Stack.popBoolean s = .ok true t → again p.body t = some (yes t)) :
    execute e again .ifTrue { s with items := .procedure p :: s.items } =
      some (branch yes (pure ()) s) := by
  have hchoice : Behaviour.chooseIf { s with items := .procedure p :: s.items } =
      (do let b ← Stack.popBoolean; return if b then some p else none : Action _) s := rfl
  have hbranch : branch yes (pure ()) s =
      (Stack.popBoolean >>= fun b => if b then yes else pure () : Action Unit) s := rfl
  simp only [execute, Operator.behaviour, hchoice, hbranch, bind, EStateM.bind]
  cases hb : Stack.popBoolean s with
  | error f t => rfl
  | ok b t =>
    cases b with
    | false => rfl
    | true => exact hyes t hb

/-- **`ifelse`** with both procedures on top, where replaying them comes to `yes` and `no`. -/
theorem execute_ifElse
    (hyes : ∀ t, Stack.popBoolean s = .ok true t → again p.body t = some (yes t))
    (hno : ∀ t, Stack.popBoolean s = .ok false t → again q.body t = some (no t)) :
    execute e again .ifElse { s with items := .procedure q :: .procedure p :: s.items } =
      some (branch yes no s) := by
  have hchoice : Behaviour.chooseIfElse { s with items := .procedure q :: .procedure p :: s.items } =
      (do let b ← Stack.popBoolean; return some (if b then p else q) : Action _) s := rfl
  have hbranch : branch yes no s =
      (Stack.popBoolean >>= fun b => if b then yes else no : Action Unit) s := rfl
  simp only [execute, Operator.behaviour, hchoice, hbranch, bind, EStateM.bind]
  cases hb : Stack.popBoolean s with
  | error f t => rfl
  | ok b t =>
    cases b with
    | false => exact hno t hb
    | true => exact hyes t hb

end Conditional

/-- Without a limit there is room for a procedure. -/
theorem runAll_cons_block {again : List Instruction → Stack → Run} {items : List Value} (origin : Nat)
    (body is : List Instruction) :
    runAll (perform e again) (.block origin body :: is) ⟨items, none⟩ =
      runAll (perform e again) is ⟨.procedure ⟨origin, body⟩ :: items, none⟩ := rfl

/-- **A structured body** carried out as instructions comes to its direct meaning, if as many replays are
allowed as its blocks nest. -/
theorem runAll_phrase (body : Body) {k n : Nat} (hn : body.phrase.height ≤ n) {s : Stack}
    (hs : s.limit = none) :
    runAll (perform e (replay e n)) (body.phrase.record k) s = some (body.run e s) := by
  -- on the body, for any number of braces before it and any stack without a limit
  induction body generalizing k n s with
  | done => rfl
  | number x rest ih =>
    refine runAll_cons_action rfl fun u hu => ih hn ?_
    rw [Stack.limit_eq (fun σ => σ.push_number x) hu, hs]
  | boolean b rest ih =>
    refine runAll_cons_action rfl fun u hu => ih hn ?_
    rw [Stack.limit_eq (fun σ => σ.push_boolean b) hu, hs]
  | operator op simple rest ih =>
    refine runAll_cons_action (execute_simple simple s) fun u hu => ih hn ?_
    rw [Stack.limit_eq (fun σ => σ.act op) hu, hs]
  | ifTrue yes rest ihy ihr =>
    -- `yes` is one replay further in, where its blocks nest one less deep
    obtain ⟨hy, hr⟩ := Nat.max_le.mp hn
    obtain ⟨m, rfl⟩ := Nat.exists_eq_succ_of_ne_zero (Nat.ne_zero_of_lt hy)
    obtain ⟨items, limit⟩ := s
    obtain rfl : limit = none := hs
    have hif := execute_ifTrue (e := e) (p := ⟨k, yes.phrase.record (k + 1)⟩) (s := ⟨items, none⟩)
      fun t ht => ihy (Nat.le_of_succ_le_succ hy) (Stack.limit_eq (fun σ => σ.popBoolean) ht)
    rw [Body.phrase, Phrase.record, runAll_cons_block]
    refine runAll_cons_action hif fun u hu => ihr hr ?_
    exact Stack.limit_eq (fun σ => σ.branch (σ.run yes) (.pure rfl)) hu
  | ifElse yes no rest ihy ihn ihr =>
    obtain ⟨hy, hrest⟩ := Nat.max_le.mp hn
    obtain ⟨hno, hr⟩ := Nat.max_le.mp hrest
    obtain ⟨m, rfl⟩ := Nat.exists_eq_succ_of_ne_zero (Nat.ne_zero_of_lt hy)
    obtain ⟨items, limit⟩ := s
    obtain rfl : limit = none := hs
    have hif := execute_ifElse (e := e) (p := ⟨k, yes.phrase.record (k + 1)⟩)
      (q := ⟨k + (yes.phrase.blocks + 1), no.phrase.record (k + (yes.phrase.blocks + 1) + 1)⟩)
      (s := ⟨items, none⟩)
      (fun t ht => ihy (Nat.le_of_succ_le_succ hy) (Stack.limit_eq (fun σ => σ.popBoolean) ht))
      (fun t ht => ihn (Nat.le_of_succ_le_succ hno) (Stack.limit_eq (fun σ => σ.popBoolean) ht))
    rw [Body.phrase, Phrase.record, runAll_cons_block, Phrase.record, runAll_cons_block]
    refine runAll_cons_action hif fun u hu => ihr hr ?_
    exact Stack.limit_eq (fun σ => σ.branch (σ.run yes) (σ.run no)) hu

/-! ## Whole programs -/

/-- **Structured programs mean what they say.** A program `{ body }` with structured conditionals, read
through a buffer that memory can hold, ends, and with the outcome of its direct meaning: the same stack or
the same first fault. -/
theorem evaluate_body (e : Elementary) (o : Options) (source : Source) (body : Body)
    (inputs : List Float) (hspell : Spells o source body.phrase.braced)
    (hbuffer : Window.Fits o.bufferCapacity) (hfit : body.phrase.height + 1 ≤ o.maxNestingDepth)
    (hlimit : o.maxStackDepth = none) (n : Nat) (hn : body.phrase.height ≤ n) :
    evaluate e n o source inputs =
      some (Action.outcome (do Stack.pushNumbers inputs; body.run e) {}) := by
  have hbind : (do Stack.pushNumbers inputs; body.run e : Action Unit) {} =
      EStateM.bind (Stack.pushNumbers inputs) (fun _ => body.run e) {} := rfl
  rw [evaluate_spelled hspell hbuffer.not_wraps hfit, hlimit, Action.outcome, hbind]
  unfold EStateM.bind
  cases hp : Stack.pushNumbers inputs {} with
  | error f t => rfl
  | ok _ stack =>
    have hstack : stack.limit = none := Stack.limit_eq (fun σ => σ.pushNumbers inputs) hp
    show (runAll _ _ stack).outcome = _
    rw [runAll_phrase body hn hstack]
    simp only
    cases body.run e stack <;> rfl

/-! ### Nested conditionals -/

/-- The bytes of `{true {false {true} {false} ifelse} if}`, without its blanks. -/
def nestedText : List UInt8 :=
  [0x7B, 0x74, 0x72, 0x75, 0x65, 0x7B, 0x66, 0x61, 0x6C, 0x73, 0x65, 0x7B, 0x74, 0x72, 0x75, 0x65,
    0x7D, 0x7B, 0x66, 0x61, 0x6C, 0x73, 0x65, 0x7D, 0x69, 0x66, 0x65, 0x6C, 0x73, 0x65, 0x7D, 0x69,
    0x66, 0x7D]

/-- Its body. -/
def nestedBody : Body :=
  .boolean true (.ifTrue
    (.boolean false (.ifElse (.boolean true .done) (.boolean false .done) .done)) .done)

/-- No limit on the stack, and braces that just fit. -/
def nestedOptions : Options :=
  { maxStackDepth := none, maxNestingDepth := 3 }

theorem spells_nestedBody :
    Spells nestedOptions (.ofBytes nestedText) nestedBody.phrase.braced where
  most := by simp [Source.ofBytes]
  whole := rfl
  admitted := by decide
  meaning := by
    have hwords : words (Source.ofBytes nestedText).delivered.bytes =
        [[0x7B], [0x74, 0x72, 0x75, 0x65], [0x7B], [0x66, 0x61, 0x6C, 0x73, 0x65], [0x7B],
          [0x74, 0x72, 0x75, 0x65], [0x7D], [0x7B], [0x66, 0x61, 0x6C, 0x73, 0x65], [0x7D],
          [0x69, 0x66, 0x65, 0x6C, 0x73, 0x65], [0x7D], [0x69, 0x66], [0x7D]] := rfl
    rw [hwords]
    repeat' constructor

/-- Two replays are enough, and the input stays underneath. -/
theorem evaluate_body_nested :
    nestedBody.phrase.height = 2 ∧ evaluate .machine 2 nestedOptions (.ofBytes nestedText) [7] =
      some (.ok ⟨[.boolean false, .number 7], none⟩) :=
  ⟨rfl, (evaluate_body .machine _ _ nestedBody [7] spells_nestedBody (by decide) (by decide) rfl 2
    (by decide)).trans rfl⟩

/-! ### A buffer without room -/

theorem spells_true :
    Spells { largestBuffer with maxStackDepth := none } (.ofBytes [0x7B, 0x74, 0x72, 0x75, 0x65, 0x7D])
      (Body.boolean true .done).phrase.braced where
  most := by simp [Source.ofBytes]
  whole := rfl
  admitted := by decide
  meaning := by
    have hwords : words (Source.ofBytes [0x7B, 0x74, 0x72, 0x75, 0x65, 0x7D]).delivered.bytes =
        [[0x7B], [0x74, 0x72, 0x75, 0x65], [0x7D]] := rfl
    rw [hwords]
    repeat' constructor

/-- The words of `{true}` are admitted where the length of the buffer wraps round, and they are not read. -/
theorem not_evaluate_body_largest :
    ¬∀ (e : Elementary) (o : Options) (source : Source) (body : Body) (inputs : List Float),
      Spells o source body.phrase.braced → body.phrase.height + 1 ≤ o.maxNestingDepth →
        o.maxStackDepth = none → ∀ n, body.phrase.height ≤ n →
          evaluate e n o source inputs =
            some (Action.outcome (do Stack.pushNumbers inputs; body.run e) {}) := by
  intro h
  have hread := h .machine _ _ _ [] spells_true (by decide) rfl 0 (by decide)
  rw [evaluate_of_wraps (by decide)] at hread
  cases hread

end TypeFour
