import TypeFour.Proofs.Bound
import TypeFour.Proofs.Operands

/-!
# `TypeFour.Proofs.Failures` — what a failure leaves

An operator takes its operands off one after the other, from the top down, and may refuse each of them. After
that it does one thing more: it pushes a result, or it rearranges what is left. That one thing is done wholly
or not at all. So a failure, wherever it comes, has taken some of the operands off and has done nothing else,
and of the operators that act none takes more than two.

`if` and `ifelse` take two and three operands before they choose a procedure. What happens in the procedure is
another matter, as all its instructions up to the one that fails have been carried out.

## Contents
- `Stack.without` — a stack without its top values.
- `FailsWithin` — actions that take a few values off at most when they fail.
- `Takes` — actions that take values off; `Takes.popNumber`, … — the typed pops, and the choices.
- `LooksFirst`, `AllOrNothing` — actions that change nothing when they fail.
- `failsWithin_of_plain`, `failsWithin_of_choosing` — operators.
- `execute_failed` — all of it; `execute_failed_operandsGone` — failures that have taken all they may.
-/

namespace TypeFour

variable {α β : Type} {n : Nat}

/-- The stack without its `k` top values, or empty if there are not so many. -/
def Stack.without (k : Nat) (s : Stack) : Stack :=
  { s with items := s.items.drop k }

theorem Stack.size_without (k : Nat) (s : Stack) : (s.without k).size = s.size - k :=
  List.length_drop

theorem Stack.without_without (j k : Nat) (s : Stack) : (s.without j).without k = s.without (j + k) := by
  rw [without, without, without, List.drop_drop]

/-! ## Taking values off -/

/-- If the action fails, it has taken off `n` values at most and done nothing else. -/
def FailsWithin (n : Nat) (act : Action α) : Prop :=
  ∀ ⦃s t : Stack⦄ ⦃f : Fault⦄, act s = .error f t → ∃ k ≤ n, t = s.without k

theorem FailsWithin.mono {m : Nat} {act : Action α} (h : FailsWithin m act) (hmn : m ≤ n) :
    FailsWithin n act := by
  intro s t f hr
  obtain ⟨k, hk, ht⟩ := h hr
  exact ⟨k, Nat.le_trans hk hmn, ht⟩

/-- The action takes `n` values off, or it fails when it has taken off some of them. -/
structure Takes (n : Nat) (act : Action α) : Prop where
  ok {s t : Stack} {a : α} : act s = .ok a t → n ≤ s.size ∧ t = s.without n
  error : FailsWithin n act

namespace Takes

variable {m : Nat} {act : Action α} {k : α → Action β}

theorem pure (a : α) : Takes 0 (Pure.pure a : Action α) where
  ok h := by
    cases h
    exact ⟨Nat.zero_le _, rfl⟩
  error _ _ _ h := by cases h

theorem throw (f : Fault) : Takes n (MonadExcept.throw f : Action α) where
  ok h := by cases h
  error _ _ _ h := by
    cases h
    exact ⟨0, Nat.zero_le n, rfl⟩

theorem pop : Takes 1 Stack.pop where
  ok {s _ _} h := by
    obtain ⟨items, limit⟩ := s
    cases items with
    | nil => cases h
    | cons v vs =>
      cases h
      exact ⟨Nat.succ_pos _, rfl⟩
  error s _ _ h := by
    obtain ⟨items, limit⟩ := s
    cases items with
    | nil =>
      cases h
      exact ⟨0, Nat.zero_le 1, rfl⟩
    | cons v vs => cases h

/-- **After the operands** the rest may fail as well. -/
theorem failsWithin (hact : Takes m act) (hk : ∀ a, FailsWithin n (k a)) :
    FailsWithin (m + n) (act >>= k) := by
  intro s t f h
  obtain hr | ⟨a, u, hr, hrest⟩ := Action.error_of_bind h
  · exact hact.error.mono (Nat.le_add_right m n) hr
  · obtain ⟨-, rfl⟩ := hact.ok hr
    obtain ⟨i, hi, rfl⟩ := hk a hrest
    exact ⟨m + i, Nat.add_le_add_left hi m, Stack.without_without m i s⟩

/-- **One after the other.** -/
theorem bind (hact : Takes m act) (hk : ∀ a, Takes n (k a)) : Takes (m + n) (act >>= k) where
  ok {s t _} h := by
    obtain ⟨a, u, hr, hrest⟩ := Action.ok_of_bind h
    obtain ⟨hm, rfl⟩ := hact.ok hr
    obtain ⟨hn, rfl⟩ := (hk a).ok hrest
    rw [Stack.size_without] at hn
    exact ⟨by omega, Stack.without_without m n s⟩
  error := hact.failsWithin fun a => (hk a).error

/-- Taking values off, and looking at them. -/
theorem seen (hact : Takes n act) (hk : ∀ a, Takes 0 (k a)) : Takes n (act >>= k) :=
  hact.bind hk

theorem popNumber : Takes 1 Stack.popNumber := by
  refine Takes.pop.seen fun v => ?_
  cases v with
  | number x => exact .pure x
  | boolean b => exact .throw _
  | procedure p => exact .throw _

theorem popBoolean : Takes 1 Stack.popBoolean := by
  refine Takes.pop.seen fun v => ?_
  cases v with
  | number x => exact .throw _
  | boolean b => exact .pure b
  | procedure p => exact .throw _

theorem popProcedure : Takes 1 Stack.popProcedure := by
  refine Takes.pop.seen fun v => ?_
  cases v with
  | number x => exact .throw _
  | boolean b => exact .throw _
  | procedure p => exact .pure p

theorem popInteger : Takes 1 Stack.popInteger :=
  popNumber.seen fun _ => .pure _

theorem popCount : Takes 1 Stack.popCount := by
  refine Takes.popInteger.seen fun i => ?_
  by_cases hi : i < 0
  · rw [if_pos hi]
    exact .throw _
  · rw [if_neg hi]
    exact .pure _

theorem chooseIf : Takes 2 Behaviour.chooseIf :=
  popProcedure.bind fun _ => popBoolean.seen fun _ => .pure _

theorem chooseIfElse : Takes 3 Behaviour.chooseIfElse :=
  popProcedure.bind fun _ => popProcedure.bind fun _ => popBoolean.seen fun _ => .pure _

end Takes

/-! ## Wholly or not at all -/

/-- The action changes nothing when it fails. -/
def AllOrNothing (act : Action α) : Prop :=
  ∀ ⦃s t : Stack⦄ ⦃f : Fault⦄, act s = .error f t → t = s

theorem AllOrNothing.failsWithin {act : Action α} (h : AllOrNothing act) : FailsWithin 0 act :=
  fun _ _ _ hr => ⟨0, Nat.le_refl 0, h hr⟩

/-- The actions of a stack that look whether they can be done before they do anything. -/
inductive LooksFirst : {α : Type} → Action α → Prop where
  | push (v : Value) : LooksFirst (Stack.push v)
  | dup : LooksFirst Stack.dup
  | exch : LooksFirst Stack.exch
  | copy (n : Nat) : LooksFirst (Stack.copy n)
  | index (n : Nat) : LooksFirst (Stack.index n)
  | roll (n : Nat) (j : Int) : LooksFirst (Stack.roll n j)
  | peek (n : Nat) : LooksFirst (Stack.peek n)

namespace AllOrNothing

theorem push (v : Value) : AllOrNothing (Stack.push v) := by
  intro s t f h
  unfold Stack.push at h
  split at h
  · cases h
  · cases h
    rfl

theorem peek (n : Nat) : AllOrNothing (Stack.peek n) := by
  intro s t f h
  unfold Stack.peek at h
  split at h
  · cases h
  · cases h
    rfl

theorem exch : AllOrNothing Stack.exch := by
  intro s t f h
  unfold Stack.exch at h
  split at h
  · cases h
  · cases h
    rfl

theorem copy (n : Nat) : AllOrNothing (Stack.copy n) := by
  intro s t f h
  unfold Stack.copy at h
  split at h
  · cases h
    rfl
  · split at h
    · cases h
    · cases h
      rfl

theorem roll (n : Nat) (j : Int) : AllOrNothing (Stack.roll n j) := by
  intro s t f h
  unfold Stack.roll at h
  split at h
  · cases h
    rfl
  · cases h

/-- What is pushed has only been looked at. -/
theorem index (n : Nat) : AllOrNothing (Stack.index n) := by
  intro s t f h
  cases hv : s.items[n]? with
  | none =>
    rw [Stack.index_of_le (List.getElem?_eq_none_iff.mp hv)] at h
    cases h
    rfl
  | some v =>
    rw [Stack.index_of_getElem? hv] at h
    exact push v h

end AllOrNothing

/-- **Actions that look first** change nothing when they fail. -/
theorem LooksFirst.allOrNothing {act : Action α} (h : LooksFirst act) : AllOrNothing act := by
  cases h with
  | push v => exact .push v
  | dup => exact .index 0
  | exch => exact .exch
  | copy n => exact .copy n
  | index n => exact .index n
  | roll n j => exact .roll n j
  | peek n => exact .peek n

/-! ## Operators -/

variable {e : Elementary} {op : Operator}

/-- **An operator that acts** has taken two values off at most when it fails. -/
theorem failsWithin_of_plain {act : Action Unit} (hb : op.behaviour e = .plain act) : FailsWithin 2 act := by
  obtain ⟨k, hk, hact⟩ | ⟨hcopying, -⟩ | ⟨hmoving, -⟩ := plain_cases (R := fun _ _ => True) hb
    (fun _ _ _ => trivial) (fun _ _ => trivial) (fun _ _ => trivial)
  · have herror : FailsWithin (k + 1) act := fun _ _ _ h => hact.error h
    exact herror.mono (Nat.succ_le_succ hk)
  · cases op with
    | copy =>
      cases hb
      exact (Takes.popCount.failsWithin fun n => (AllOrNothing.copy n).failsWithin).mono (by omega)
    | index =>
      cases hb
      exact (Takes.popCount.failsWithin fun n => (AllOrNothing.index n).failsWithin).mono (by omega)
    | dup =>
      cases hb
      exact (AllOrNothing.index 0).failsWithin.mono (by omega)
    | _ => cases hcopying
  · cases op with
    | exch =>
      cases hb
      exact AllOrNothing.exch.failsWithin.mono (by omega)
    | pop =>
      cases hb
      exact (Takes.pop.seen fun _ => .pure ()).error.mono (by omega)
    | roll =>
      cases hb
      exact Takes.popInteger.failsWithin fun j =>
        Takes.popCount.failsWithin fun n => (AllOrNothing.roll n j.toInt).failsWithin
    | openBrace | closeBrace | noOp =>
      cases hb
      exact (Takes.pure ()).error.mono (by omega)
    | _ => cases hmoving

/-- **An operator that chooses** has taken three values off at most when it fails to choose. -/
theorem failsWithin_of_choosing {choice : Action (Option Procedure)} (hb : op.behaviour e = .choosing choice) :
    FailsWithin 3 choice := by
  cases op with
  | ifTrue =>
    cases hb
    exact Takes.chooseIf.error.mono (by omega)
  | ifElse =>
    cases hb
    exact Takes.chooseIfElse.error
  | _ => cases hb

/-- **What a failure leaves.** When an operator other than `if` and `ifelse` fails, the stack is as it was
without its two top values at most; nothing has been pushed, moved or changed. When `if` or `ifelse` fails and
has not chosen a procedure, that holds with three values. Actions that look first leave the stack exactly as it
was. -/
theorem execute_failed (e : Elementary) (again : List Instruction → Stack → Run) (op : Operator) (s t : Stack)
    (f : Fault) :
    (op ≠ .ifTrue → op ≠ .ifElse → execute e again op s = some (.error f t) → ∃ k ≤ 2, t = s.without k) ∧
    (op = .ifTrue ∨ op = .ifElse → (∀ p u, ¬op.Chooses e s p u) →
      execute e again op s = some (.error f t) → ∃ k ≤ 3, t = s.without k) ∧
    ∀ (α : Type) (act : Action α), LooksFirst act → act s = .error f t → t = s := by
  refine ⟨?_, ?_, ?_⟩
  · intro hif hifElse h
    unfold execute at h
    cases hb : op.behaviour e with
    | plain act =>
      rw [hb] at h
      exact failsWithin_of_plain hb (Option.some.inj h)
    | choosing choice =>
      rcases (arranges_of_choosing hb).1 with hop | hop
      · exact absurd hop hif
      · exact absurd hop hifElse
  · intro _ hnone h
    unfold execute at h
    cases hb : op.behaviour e with
    | plain act =>
      rw [hb] at h
      exact (failsWithin_of_plain hb).mono (by omega) (Option.some.inj h)
    | choosing choice =>
      rw [hb] at h
      simp only at h
      cases hc : choice s with
      | error g u =>
        rw [hc] at h
        cases h
        exact failsWithin_of_choosing hb hc
      | ok c u =>
        rw [hc] at h
        cases c with
        | none => cases h
        | some p => exact absurd ⟨choice, hb, hc⟩ (hnone p u)
  · intro α act hact h
    exact hact.allOrNothing h

/-! ### Failures that have taken all they may -/

/-- The operands of `roll`, which ask for five values where there are two. -/
def fiveOfTwo : Stack :=
  ⟨[.number 1, .number 5, .boolean true, .procedure ⟨0, []⟩], some 4⟩

/-- Two procedures with a number where the condition should be. -/
def noCondition : Stack :=
  ⟨[.procedure ⟨1, []⟩, .procedure ⟨0, []⟩, .number 1, .boolean true], none⟩

/-- A `roll` that has taken both its numbers off, and an `ifelse` that has taken off all three operands. -/
theorem execute_failed_operandsGone :
    (execute .machine (replay .machine 0) .roll fiveOfTwo =
        some (.error .stackUnderflow ⟨[.boolean true, .procedure ⟨0, []⟩], some 4⟩) ∧
      ∃ k ≤ 2, ⟨[.boolean true, .procedure ⟨0, []⟩], some 4⟩ = fiveOfTwo.without k) ∧
    ((∀ p u, ¬Operator.ifElse.Chooses .machine noCondition p u) ∧
      execute .machine (replay .machine 0) .ifElse noCondition =
        some (.error .typeCheck ⟨[.boolean true], none⟩) ∧
      ∃ k ≤ 3, ⟨[.boolean true], none⟩ = noCondition.without k) ∧
    LooksFirst (Stack.copy 5) ∧
      ∃ t, Stack.copy 5 noCondition = .error .stackUnderflow t ∧ t = noCondition := by
  have hroll : execute .machine (replay .machine 0) .roll fiveOfTwo =
      some (.error .stackUnderflow ⟨[.boolean true, .procedure ⟨0, []⟩], some 4⟩) := rfl
  have hnone (p : Procedure) (u : Stack) : ¬Operator.ifElse.Chooses .machine noCondition p u := by
    rintro ⟨choice, hb, hc⟩
    cases hb
    cases hc
  have hifElse : execute .machine (replay .machine 0) .ifElse noCondition =
      some (.error .typeCheck ⟨[.boolean true], none⟩) := rfl
  have hcopy : Stack.copy 5 noCondition = .error .stackUnderflow noCondition := rfl
  obtain ⟨hplain, -, -⟩ := execute_failed .machine (replay .machine 0) .roll fiveOfTwo _ _
  obtain ⟨-, hchoosing, -⟩ := execute_failed .machine (replay .machine 0) .ifElse noCondition _ _
  obtain ⟨-, -, hmethods⟩ := execute_failed .machine (replay .machine 0) .copy noCondition _ _
  exact ⟨⟨hroll, hplain nofun nofun hroll⟩, ⟨hnone, hifElse, hchoosing (.inr rfl) hnone hifElse⟩, .copy 5, _,
    hcopy, hmethods _ _ (.copy 5) hcopy⟩

end TypeFour
