import TypeFour.Proofs.Phrase
import TypeFour.Proofs.Renaming

/-!
# `TypeFour.Proofs.Deferred` — executing now or replaying later

Tokens at depth one are executed as they come; one pair of braces deeper they are recorded, and may be
replayed later. The two ways agree: for tokens `T` whose braces match, the program `{ T }` does what the
procedure does that `{ { T } }` leaves. Only the numbers of the inner braces differ, by the one that the
second program has more in front.

## Contents
- `Procedure.evaluate` — a procedure replayed on inputs, on a stack of its own.
- `Phrase.record_succ` — one more brace in front.
- `evaluate_deferred` — what `{ { T } }` leaves; `replay_eq_evaluate` — now and later.
- `not_replay_eq_evaluate_largest` — a buffer without room.
-/

namespace TypeFour

/-- A procedure replayed on some inputs, on a stack of its own, with at most `n` replays under way at
once. -/
def Procedure.evaluate (e : Elementary) (n : Nat) (p : Procedure) (limit : Option Nat)
    (inputs : List Float) : Outcome Stack :=
  Run.resume (some (Stack.pushNumbers inputs { limit })) fun stack =>
    (replay e n p.body stack).outcome

/-- The outcome with every brace numbered anew. -/
def Outcome.rename (f : Nat → Nat) : Outcome Stack → Outcome Stack :=
  Option.map (Except.map (Stack.rename f))

variable {e : Elementary} {n : Nat} {o : Options}

/-- One more brace in front makes every number one larger. -/
theorem Phrase.record_succ (T : Phrase) (k : Nat) :
    T.record (k + 1) = renameAll Nat.succ (T.record k) := by
  induction T generalizing k with
  | nil => rfl
  | token t plain rest ih =>
    rw [record, record, renameAll, ih]
    cases t <;> rfl
  | block inner rest ihi ihr =>
    rw [record, record, renameAll, Instruction.rename, ihi, Nat.add_right_comm, ihr]

theorem Run.outcome_rename (r : Run) (f : Nat → Nat) :
    (r.rename f).outcome = r.outcome.rename f := by
  cases r with
  | none => rfl
  | some result => cases result <;> rfl

/-- Numbers carry no brace. -/
theorem Stack.rename_of_pushNumbers {inputs : List Float} {limit : Option Nat} {s : Stack}
    (f : Nat → Nat) (h : Stack.pushNumbers inputs { limit } = .ok () s) : s.rename f = s :=
  Stack.rename_of_all (.of_inputs h)

/-- **`{ { T } }`** leaves one procedure, which holds the instructions of `T`. -/
theorem evaluate_deferred {source : Source} {T : Phrase} (h : Spells o source T.braced.braced)
    (hwraps : ¬Window.Wraps o.bufferCapacity) (hfit : T.height + 2 ≤ o.maxNestingDepth)
    (hroom : o.maxStackDepth ≠ some 0) :
    evaluate e n o source [] =
      some (.ok ⟨[.procedure ⟨1, T.record 2⟩], o.maxStackDepth⟩) := by
  have hheight : T.braced.height + 1 ≤ o.maxNestingDepth := by
    rw [Phrase.height, Phrase.height, Nat.max_zero]
    exact hfit
  have hpush : Stack.push (.procedure ⟨1, T.record 2⟩) { limit := o.maxStackDepth } =
      .ok () ⟨[.procedure ⟨1, T.record 2⟩], o.maxStackDepth⟩ := by
    have hone : Stack.hasRoom { limit := o.maxStackDepth } 1 = true := by
      cases hlimit : o.maxStackDepth with
      | none => rfl
      | some m =>
        have hm : m ≠ 0 := fun h => hroom (h ▸ hlimit)
        simpa [Stack.hasRoom, Stack.size] using Nat.one_le_iff_ne_zero.mpr hm
    rw [Stack.push, if_pos hone]
  rw [evaluate_spelled h hwraps hheight]
  show (runAll (perform e (replay e n)) [.block 1 (T.record 2)] { limit := o.maxStackDepth }).outcome = _
  rw [runAll, perform, hpush]
  rfl

/-- **Now and later agree.** Evaluating `{ T }` comes to what replaying the procedure comes to that
`{ { T } }` leaves, whatever stack limit the two work under: both end or neither does, with the same fault,
or with stacks that differ in the numbers of braces only. The replay itself takes one more of those that
may be under way. The buffer is one that memory can hold. -/
theorem replay_eq_evaluate (e : Elementary) (o : Options) (T : Phrase) (source nested : Source)
    (hspell : Spells o source T.braced) (hnested : Spells o nested T.braced.braced)
    (hbuffer : Window.Fits o.bufferCapacity) (hfit : T.height + 2 ≤ o.maxNestingDepth)
    (hroom : o.maxStackDepth ≠ some 0) :
    ∃ (p : Procedure) (f : Nat → Nat), f.Injective ∧
      (∀ n, evaluate e n o nested [] = some (.ok ⟨[.procedure p], o.maxStackDepth⟩)) ∧
      ∀ n limit inputs, p.evaluate e (n + 1) limit inputs =
        (evaluate e n { o with maxStackDepth := limit } source inputs).rename f := by
  refine ⟨⟨1, T.record 2⟩, Nat.succ, Nat.succ_injective,
    fun n => evaluate_deferred hnested hbuffer.not_wraps hfit hroom, fun n limit inputs => ?_⟩
  have hlimited : Spells { o with maxStackDepth := limit } source T.braced :=
    ⟨hspell.most, hspell.whole, hspell.admitted, hspell.meaning⟩
  rw [evaluate_spelled hlimited hbuffer.not_wraps (Nat.le_of_succ_le hfit), Procedure.evaluate]
  cases hp : Stack.pushNumbers inputs { limit } with
  | error fault s => rfl
  | ok _ s =>
    -- the inputs are numbers, so both begin with the same stack
    show (replay e (n + 1) (T.record 2) s).outcome =
      (replay e (n + 1) (T.record 1) s).outcome.rename Nat.succ
    rw [← Run.outcome_rename, ← replay_rename Nat.succ_injective,
      Stack.rename_of_pushNumbers Nat.succ hp, ← Phrase.record_succ]

/-! ### Two blocks that read alike -/

/-- The bytes of `{true} dup {true} eq`, which leaves a block and compares it with another. -/
def compareText : List UInt8 :=
  [0x7B, 0x74, 0x72, 0x75, 0x65, 0x7D, 0x64, 0x75, 0x70, 0x7B, 0x74, 0x72, 0x75, 0x65, 0x7D, 0x65, 0x71]

/-- Its tokens. -/
def comparePhrase : Phrase :=
  .block (.token (.boolean true) rfl .nil) (.token (.operator .dup) rfl
    (.block (.token (.boolean true) rfl .nil) (.token (.operator .eq) rfl .nil)))

/-- Braces that just fit, and room for one procedure. -/
def compareOptions : Options :=
  { maxStackDepth := some 1, maxNestingDepth := 3 }

theorem spells_compare :
    Spells compareOptions (.ofBytes ([0x7B] ++ compareText ++ [0x7D])) comparePhrase.braced where
  most := by simp [Source.ofBytes]
  whole := rfl
  admitted := by decide
  meaning := by
    have hwords : words (Source.ofBytes ([0x7B] ++ compareText ++ [0x7D])).delivered.bytes =
        [[0x7B], [0x7B], [0x74, 0x72, 0x75, 0x65], [0x7D], [0x64, 0x75, 0x70], [0x7B],
          [0x74, 0x72, 0x75, 0x65], [0x7D], [0x65, 0x71], [0x7D]] := rfl
    rw [hwords]
    repeat' constructor

theorem spells_compare_deferred :
    Spells compareOptions (.ofBytes ([0x7B, 0x7B] ++ compareText ++ [0x7D, 0x7D]))
      comparePhrase.braced.braced where
  most := by simp [Source.ofBytes]
  whole := rfl
  admitted := by decide
  meaning := by
    have hwords : words (Source.ofBytes ([0x7B, 0x7B] ++ compareText ++ [0x7D, 0x7D])).delivered.bytes =
        [[0x7B], [0x7B], [0x7B], [0x74, 0x72, 0x75, 0x65], [0x7D], [0x64, 0x75, 0x70], [0x7B],
          [0x74, 0x72, 0x75, 0x65], [0x7D], [0x65, 0x71], [0x7D], [0x7D]] := rfl
    rw [hwords]
    repeat' constructor

/-- Now and later, the two blocks are different values, and the first is left on the stack. -/
theorem replay_eq_evaluate_compare :
    comparePhrase.height + 2 ≤ compareOptions.maxNestingDepth ∧
      ∃ (p : Procedure) (f : Nat → Nat), f.Injective ∧
        evaluate .machine 0 compareOptions (.ofBytes ([0x7B, 0x7B] ++ compareText ++ [0x7D, 0x7D])) [] =
          some (.ok ⟨[.procedure p], some 1⟩) ∧
        p.evaluate .machine 1 (some 3) [] =
          some (.ok ⟨[.boolean false, .procedure ⟨f 1, [.boolean true]⟩], some 3⟩) := by
  refine ⟨by decide, ?_⟩
  obtain ⟨p, f, hf, hleft, hagree⟩ := replay_eq_evaluate .machine compareOptions comparePhrase _ _
    spells_compare spells_compare_deferred (by decide) (by decide) (by decide)
  have hnow : evaluate .machine 0 { compareOptions with maxStackDepth := some 3 }
      (.ofBytes ([0x7B] ++ compareText ++ [0x7D])) [] =
        some (.ok ⟨[.boolean false, .procedure ⟨1, [.boolean true]⟩], some 3⟩) :=
    (evaluate_of_inputs (by simp [Source.ofBytes]) (by decide) rfl).trans rfl
  refine ⟨p, f, hf, hleft 0, ?_⟩
  rw [hagree 0 (some 3) [], hnow]
  rfl

/-! ### A buffer without room -/

theorem spells_empty : Spells largestBuffer (.ofBytes [0x7B, 0x7D]) Phrase.nil.braced where
  most := by simp [Source.ofBytes]
  whole := rfl
  admitted := by decide
  meaning := by
    have hwords : words (Source.ofBytes [0x7B, 0x7D]).delivered.bytes = [[0x7B], [0x7D]] := rfl
    rw [hwords]
    repeat' constructor

theorem spells_empty_deferred :
    Spells largestBuffer (.ofBytes [0x7B, 0x7B, 0x7D, 0x7D]) Phrase.nil.braced.braced where
  most := by simp [Source.ofBytes]
  whole := rfl
  admitted := by decide
  meaning := by
    have hwords : words (Source.ofBytes [0x7B, 0x7B, 0x7D, 0x7D]).delivered.bytes =
        [[0x7B], [0x7B], [0x7D], [0x7D]] := rfl
    rw [hwords]
    repeat' constructor

/-- Where the length of the buffer wraps round, `{ { } }` leaves no procedure. -/
theorem not_replay_eq_evaluate_largest :
    ¬∀ (e : Elementary) (o : Options) (T : Phrase) (source nested : Source),
      Spells o source T.braced → Spells o nested T.braced.braced →
        T.height + 2 ≤ o.maxNestingDepth → o.maxStackDepth ≠ some 0 →
          ∃ (p : Procedure) (f : Nat → Nat), f.Injective ∧
            (∀ n, evaluate e n o nested [] = some (.ok ⟨[.procedure p], o.maxStackDepth⟩)) ∧
            ∀ n limit inputs, p.evaluate e (n + 1) limit inputs =
              (evaluate e n { o with maxStackDepth := limit } source inputs).rename f := by
  intro h
  obtain ⟨p, -, -, hleft, -⟩ := h .machine _ _ _ _ spells_empty spells_empty_deferred (by decide) (by decide)
  have hread := hleft 0
  rw [evaluate_largestBuffer] at hread
  cases hread

end TypeFour
