import Mathlib.Data.List.TakeWhile
import TypeFour.Proofs.Bound
import TypeFour.Proofs.Reading

/-!
# `TypeFour.Proofs.Phrase` — tokens whose braces match

A session takes one token at a time. Tokens whose braces match can be taken together (`Phrase`): while a
block is being recorded they become instructions (`Phrase.record`), with every inner block a single one; at
depth one they are executed, and what that comes to is what carrying out the same instructions comes to.
So one list of instructions stands for both ways of going through a piece of text.

## Contents
- `Phrase`, `Phrase.tokens`, `Phrase.height`, `Phrase.record` — the tree, its text, its instructions.
- `Session.acceptAll`, `run_eq_acceptAll` — a session over tokens.
- `acceptAll_record` — a phrase inside a recording; `acceptAll_execute` — a phrase at depth one.
- `Spells`, `evaluate_spelled` — a whole program `{ T }`.
-/

namespace TypeFour

variable {e : Elementary} {n : Nat} {o : Options}

/-! ## Phrases -/

/-- The token is a brace. -/
def Token.isBrace : Token → Bool
  | .operator .openBrace => true
  | .operator .closeBrace => true
  | _ => false

theorem Token.isBrace_boolean (b : Bool) : (Token.boolean b).isBrace = false := rfl

/-- The instruction that a token other than a brace is recorded as. -/
def Token.toInstruction : Token → Instruction
  | .number x => .number x
  | .boolean b => .boolean b
  | .operator op => .operator op

/-- Tokens whose braces match. -/
inductive Phrase where
  | nil
  | token (t : Token) (plain : t.isBrace = false) (rest : Phrase)
  | block (inner rest : Phrase)

namespace Phrase

/-- The tokens in order. -/
def tokens : Phrase → List Token
  | nil => []
  | token t _ rest => t :: rest.tokens
  | block inner rest =>
    .operator .openBrace :: (inner.tokens ++ .operator .closeBrace :: rest.tokens)

/-- How many blocks stand inside each other. -/
def height : Phrase → Nat
  | nil => 0
  | token _ _ rest => rest.height
  | block inner rest => max (inner.height + 1) rest.height

/-- How many blocks there are. -/
def blocks : Phrase → Nat
  | nil => 0
  | token _ _ rest => rest.blocks
  | block inner rest => inner.blocks + 1 + rest.blocks

/-- The instructions that the tokens are recorded as, when `k` braces have been opened before. -/
def record : Phrase → Nat → List Instruction
  | nil, _ => []
  | token t _ rest, k => t.toInstruction :: rest.record k
  | block inner rest, k => .block k (inner.record (k + 1)) :: rest.record (k + (inner.blocks + 1))

end Phrase

/-! ## Runs that go on -/

/-- Goes on with the stack that a run leaves, if it succeeds. -/
def Run.resume {α : Type} (r : Run) (k : Stack → Outcome α) : Outcome α :=
  match r with
  | none => none
  | some (.ok _ t) => k t
  | some (.error f _) => some (.error f)

/-- What a run comes to, without the stack that a failure leaves. -/
def Run.outcome (r : Run) : Outcome Stack :=
  r.resume fun t => some (.ok t)

theorem runAll_cons_resume {α : Type} (step : Instruction → Stack → Run) (i : Instruction)
    (is : List Instruction) (s : Stack) (k : Stack → Outcome α) :
    (runAll step (i :: is) s).resume k =
      (step i s).resume fun t => (runAll step is t).resume k := by
  rw [runAll]
  cases step i s with
  | none => rfl
  | some r => cases r <;> rfl

namespace Session

/-! ## A session over tokens -/

/-- Works through tokens in order, up to the first that fails. -/
def acceptAll (e : Elementary) (n : Nat) (o : Options) : List Token → Session → Outcome Session
  | [], s => some (.ok s)
  | t :: ts, s =>
    match s.accept e n o t with
    | some (.ok s') => acceptAll e n o ts s'
    | other => other

/-- The words mean these tokens, one by one. -/
abbrev Meaning (policy : UnknownTokens) : List Word → List Token → Prop :=
  List.Forall₂ fun w t => Token.ofWord policy w = .ok t

theorem run_eq_acceptAll {ws : List Word} {ts : List Token} (h : Meaning o.unknownTokens ws ts)
    (s : Session) : run e n o ws s = acceptAll e n o ts s := by
  induction h generalizing s with
  | nil => rfl
  | @cons w t ws ts ht _ ih =>
    rw [run, ht, acceptAll]
    simp only
    cases s.accept e n o t with
    | none => rfl
    | some r =>
      cases r with
      | error f => rfl
      | ok u => exact ih u

theorem acceptAll_cons_of_ok {t : Token} {s u : Session} (h : s.accept e n o t = some (.ok u))
    (ts : List Token) : acceptAll e n o (t :: ts) s = acceptAll e n o ts u := by
  rw [acceptAll, h]

/-- A token that acts on the stack alone. -/
theorem acceptAll_cons_resume {t : Token} {s : Session} {r : Run} {k : Stack → Session}
    (h : s.accept e n o t = r.resume fun stack => some (.ok (k stack))) (ts : List Token) :
    acceptAll e n o (t :: ts) s = r.resume fun stack => acceptAll e n o ts (k stack) := by
  rw [acceptAll, h]
  cases r with
  | none => rfl
  | some result => cases result <;> rfl

/-! ## Single tokens -/

/-- Inside a recording a token is recorded, whatever it means. -/
theorem accept_record {s : Session} {r : Recording} {rs : List Recording}
    (hrec : s.recordings = r :: rs) {t : Token} (ht : t.isBrace = false) :
    s.accept e n o t = some (.ok { s with recordings := r.add t.toInstruction :: rs }) := by
  cases t with
  | number x => simp [accept, deliver, hrec, Token.toInstruction, Value.toInstruction]
  | boolean b => simp [accept, deliver, hrec, Token.toInstruction, Value.toInstruction]
  | operator op =>
    have hoperate : s.operate e n op =
        some (.ok { s with recordings := r.add (.operator op) :: rs }) := by
      simp [operate, hrec]
    cases op with
    | openBrace => cases ht
    | closeBrace => cases ht
    | _ => exact hoperate

/-- Outside recordings a token does what the instruction that it would be recorded as does. -/
theorem accept_execute {s : Session} (hrec : s.recordings = []) {t : Token}
    (ht : t.isBrace = false) :
    s.accept e n o t = (perform e (replay e n) t.toInstruction s.stack).resume
      fun stack => some (.ok { s with stack }) := by
  have hdeliver (v : Value) : some (s.deliver v) = Run.resume (some (Stack.push v s.stack))
      fun stack => some (.ok { s with stack }) := by
    simp only [deliver, hrec, Action.outcome, Run.resume]
    cases Stack.push v s.stack <;> rfl
  cases t with
  | number x => exact hdeliver _
  | boolean b => exact hdeliver _
  | operator op =>
    have hoperate : s.operate e n op = (execute e (replay e n) op s.stack).resume
        fun stack => some (.ok { s with stack }) := by
      rw [operate, hrec]
      cases execute e (replay e n) op s.stack with
      | none => rfl
      | some r => cases r <;> rfl
    cases op with
    | openBrace => cases ht
    | closeBrace => cases ht
    | _ => exact hoperate

variable {stack : Stack} {rs : List Recording} {depth opened : Nat}

/-- An opening brace inside another one begins a recording. -/
theorem accept_open (hdepth : depth ≠ 0) (hlim : depth < o.maxNestingDepth) :
    accept e n o (.operator .openBrace) ⟨stack, rs, depth, opened⟩ =
      some (.ok ⟨stack, ⟨opened, []⟩ :: rs, depth + 1, opened + 1⟩) := by
  simp only [accept, openBlock, if_neg (Nat.not_le.mpr hlim), if_neg hdepth]

/-- The closing brace of a recording delivers it as a procedure. -/
theorem accept_close {r : Recording} (hdepth : depth ≠ 0) :
    accept e n o (.operator .closeBrace) ⟨stack, r :: rs, depth + 1, opened⟩ =
      some (deliver (.procedure r.toProcedure) ⟨stack, rs, depth, opened⟩) := by
  obtain ⟨d, rfl⟩ := Nat.exists_eq_succ_of_ne_zero hdepth
  simp only [accept, closeBlock, deliver]
  cases rs with
  | cons r' rs => rfl
  | nil =>
    simp only [Except.map]
    cases Action.outcome (Stack.push (.procedure r.toProcedure)) stack <;> rfl

/-! ## Phrases -/

/-- **A phrase inside a recording** is recorded, and nothing else happens. -/
theorem acceptAll_record (T : Phrase) (ts : List Token) {origin : Nat} {latest : List Instruction}
    (hdepth : depth ≠ 0) (hfit : depth + T.height ≤ o.maxNestingDepth) :
    acceptAll e n o (T.tokens ++ ts) ⟨stack, ⟨origin, latest⟩ :: rs, depth, opened⟩ =
      acceptAll e n o ts ⟨stack, ⟨origin, (T.record opened).reverse ++ latest⟩ :: rs, depth,
        opened + T.blocks⟩ := by
  -- on the phrase, for any recordings around it and any tokens after it
  induction T generalizing origin latest rs depth opened ts with
  | nil => rfl
  | token t plain rest ih =>
    rw [Phrase.tokens, List.cons_append, acceptAll_cons_of_ok (accept_record rfl plain)]
    refine (ih ts hdepth hfit).trans ?_
    simp [Phrase.record, Phrase.blocks]
  | block inner rest ihi ihr =>
    -- the inner phrase has a recording of its own, which is closed into this one
    rw [Phrase.height] at hfit
    rw [Phrase.tokens, List.cons_append, List.append_assoc, List.cons_append,
      acceptAll_cons_of_ok (accept_open hdepth (by omega)),
      ihi _ (Nat.succ_ne_zero _) (by omega), acceptAll_cons_of_ok (accept_close hdepth)]
    refine (ihr ts hdepth (by omega)).trans ?_
    simp [Phrase.record, Phrase.blocks, Recording.toProcedure, Value.toInstruction, Nat.add_assoc,
      Nat.add_comm 1]

/-- **A block inside another** delivers one procedure, which holds the instructions of its phrase. -/
theorem acceptAll_block (T : Phrase) (ts : List Token) (hdepth : depth ≠ 0)
    (hfit : depth + (T.height + 1) ≤ o.maxNestingDepth) :
    acceptAll e n o (.operator .openBrace :: (T.tokens ++ .operator .closeBrace :: ts))
        ⟨stack, rs, depth, opened⟩ =
      Outcome.andThen (some (deliver (.procedure ⟨opened, T.record (opened + 1)⟩)
        ⟨stack, rs, depth, opened + (T.blocks + 1)⟩)) (acceptAll e n o ts) := by
  rw [acceptAll_cons_of_ok (accept_open hdepth (by omega)),
    acceptAll_record T _ (Nat.succ_ne_zero _) (by omega), acceptAll, accept_close hdepth]
  have hproc : Recording.toProcedure ⟨opened, (T.record (opened + 1)).reverse ++ []⟩ =
      ⟨opened, T.record (opened + 1)⟩ := by
    simp [Recording.toProcedure]
  rw [hproc, show opened + 1 + T.blocks = opened + (T.blocks + 1) by omega]
  cases deliver _ _ <;> rfl

/-- **A phrase at depth one** is executed: that comes to carrying out the instructions it would have been
recorded as. -/
theorem acceptAll_execute (T : Phrase) (ts : List Token) (hfit : 1 + T.height ≤ o.maxNestingDepth) :
    acceptAll e n o (T.tokens ++ ts) ⟨stack, [], 1, opened⟩ =
      (runAll (perform e (replay e n)) (T.record opened) stack).resume fun t =>
        acceptAll e n o ts ⟨t, [], 1, opened + T.blocks⟩ := by
  induction T generalizing stack opened with
  | nil => rfl
  | token t plain rest ih =>
    rw [Phrase.tokens, List.cons_append, acceptAll_cons_resume (accept_execute rfl plain),
      Phrase.record, runAll_cons_resume]
    congr 1
    funext u
    exact ih hfit
  | block inner rest ihi ihr =>
    -- the block is recorded and then pushed, as its instruction would push it
    rw [Phrase.height] at hfit
    rw [Phrase.tokens, List.cons_append, List.append_assoc, List.cons_append,
      acceptAll_block inner _ Nat.one_ne_zero (by omega), Phrase.record, runAll_cons_resume]
    simp only [deliver, perform, Action.outcome]
    cases Stack.push (.procedure ⟨opened, inner.record (opened + 1)⟩) stack with
    | error f t => rfl
    | ok _ t =>
      refine (ihr (by omega)).trans ?_
      simp only [Phrase.blocks, Nat.add_assoc]
      rfl

end Session

/-! ## Whole programs -/

/-- The source delivers the phrase in words that are not too long. -/
structure Spells (o : Options) (source : Source) (T : Phrase) : Prop where
  most : source.most ≠ some 0
  whole : source.delivered.failure = none
  admitted : ∀ w ∈ words source.delivered.bytes, w.length ≤ max o.bufferCapacity 1
  meaning : Session.Meaning o.unknownTokens (words source.delivered.bytes) T.tokens

/-- The phrase in braces. -/
abbrev Phrase.braced (T : Phrase) : Phrase :=
  .block T .nil

/-- Data that ends without a failure is read to the end, if no word is too long. -/
theorem Delivered.transcript_of_admitted {capacity : Nat} {d : Delivered} (hwhole : d.failure = none)
    (hadmitted : ∀ w ∈ words d.bytes, w.length ≤ capacity) :
    d.transcript capacity = ⟨words d.bytes, none⟩ := by
  have hall : (words d.bytes).takeWhile (fun w => decide (w.length ≤ capacity)) = words d.bytes :=
    List.takeWhile_eq_self_iff.mpr fun w hw => decide_eq_true (hadmitted w hw)
  simp [transcript, hall, hwhole]

/-- **A program in braces** is executed as the instructions of its phrase are carried out. -/
theorem evaluate_spelled {source : Source} {T : Phrase} (h : Spells o source T.braced)
    (hwraps : ¬Window.Wraps o.bufferCapacity) (hfit : T.height + 1 ≤ o.maxNestingDepth)
    (inputs : List Float) :
    evaluate e n o source inputs =
      Run.resume (some (Stack.pushNumbers inputs { limit := o.maxStackDepth })) fun stack =>
        (runAll (perform e (replay e n)) (T.record 1) stack).outcome := by
  cases hp : Stack.pushNumbers inputs { limit := o.maxStackDepth } with
  | error f t =>
    rw [evaluate, Action.outcome, hp]
    rfl
  | ok _ stack =>
    have hinputs : Action.outcome (Stack.pushNumbers inputs) { limit := o.maxStackDepth } =
        .ok stack := by
      rw [Action.outcome, hp]
    have hopen : Session.accept e n o (.operator .openBrace) { stack } =
        some (.ok ⟨stack, [], 1, 1⟩) := by
      simp only [Session.accept, Session.openBlock, if_neg (show ¬o.maxNestingDepth ≤ 0 by omega)]
      rfl
    -- between the outer braces the phrase is executed, and the last brace closes no recording
    have hrun : Session.run e n o (words source.delivered.bytes) { stack } =
        (runAll (perform e (replay e n)) (T.record 1) stack).resume fun t =>
          some (.ok ⟨t, [], 0, 1 + T.blocks⟩) := by
      rw [Session.run_eq_acceptAll h.meaning, Phrase.tokens, Session.acceptAll_cons_of_ok hopen]
      exact Session.acceptAll_execute T _ (by omega)
    rw [evaluate_of_inputs h.most hwraps hinputs, Delivered.transcript_of_admitted h.whole h.admitted,
      Transcript.evaluate, hrun]
    show _ = (runAll (perform e (replay e n)) (T.record 1) stack).outcome
    cases runAll (perform e (replay e n)) (T.record 1) stack with
    | none => rfl
    | some r => cases r <;> rfl

end TypeFour
