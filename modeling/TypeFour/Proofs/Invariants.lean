import TypeFour.Proofs.Moments
import TypeFour.Proofs.Operands
import TypeFour.Proofs.Steps

/-!
# `TypeFour.Proofs.Invariants` — what operators keep, replays keep

An invariant says something of a stack and asks something of the instructions that are carried out on it. If
pushes and operators keep it, whether they succeed or fail, and if what is asked holds of the procedures that
operators choose, then every replay keeps it, and it holds at every moment of every replay.

## Contents
- `Invariant` — what has to be shown of pushes and operators.
- `Invariant.execute`, `Invariant.replay` — operators with what they choose, and replays.
- `Invariant.metIn`, `Invariant.met` — every moment of a replay, and of a session.
- `Invariant.accept`, `Invariant.run` — one token and all words, if nothing is asked of instructions.
-/

namespace TypeFour

variable {e : Elementary} {n : Nat} {o : Options}

theorem Run.Leaves.left_eq {act : Action Unit} {s t : Stack} (h : Run.Leaves (some (act s)) t) :
    act.left s = t := by
  generalize hr : act s = r at h
  cases h with
  | ok => exact Action.left_of_ok hr
  | error => exact Action.left_of_error hr

/-- A property of stacks that pushes and operators keep, the instructions being as they should. -/
structure Invariant (e : Elementary) where
  holds : Stack → Prop
  /-- What is asked of an instruction. -/
  admits : Instruction → Prop
  push {v : Value} {s : Stack} : admits v.toInstruction → holds s → holds ((Stack.push v).left s)
  plain {op : Operator} {act : Action Unit} {s : Stack} :
    op.behaviour e = .plain act → holds s → holds (act.left s)
  choosing {op : Operator} {choice : Action (Option Procedure)} {s : Stack} :
    op.behaviour e = .choosing choice → holds s → holds (choice.left s)
  chosen {op : Operator} {s t : Stack} {p : Procedure} :
    op.Chooses e s p t → holds s → ∀ i ∈ p.body, admits i

namespace Invariant

variable (I : Invariant e) {s t u : Stack} {p : Procedure} {op : Operator} {body : List Instruction}

/-- The instructions are all as they should be. -/
abbrev Admits (body : List Instruction) : Prop :=
  ∀ i ∈ body, I.admits i

/-- The choice of a procedure. -/
theorem chooses (h : op.Chooses e s p t) (hs : I.holds s) : I.Admits p.body ∧ I.holds t := by
  refine ⟨I.chosen h hs, ?_⟩
  obtain ⟨choice, hb, hchoice⟩ := h
  rw [← Action.left_of_ok hchoice]
  exact I.choosing hb hs

/-- Carrying out such instructions keeps the invariant. -/
abbrev KeptBy (run : List Instruction → Stack → Run) : Prop :=
  ∀ body s t, I.Admits body → I.holds s → (run body s).Leaves t → I.holds t

/-- **An operator**, if replays keep the invariant. -/
theorem execute_of_again {again : List Instruction → Stack → Run} (hagain : I.KeptBy again)
    (hs : I.holds s) (h : (execute e again op s).Leaves t) : I.holds t := by
  unfold TypeFour.execute at h
  cases hb : op.behaviour e with
  | plain act =>
    rw [hb] at h
    rw [← Run.Leaves.left_eq h]
    exact I.plain hb hs
  | choosing choice =>
    have hleft := I.choosing hb hs
    rw [hb] at h
    simp only at h
    cases hc : choice s with
    | error f u =>
      rw [hc] at h
      cases h
      rwa [Action.left_of_error hc] at hleft
    | ok c u =>
      rw [Action.left_of_ok hc] at hleft
      rw [hc] at h
      cases c with
      | none =>
        cases h
        exact hleft
      | some p => exact hagain p.body u t (I.chosen ⟨choice, hb, hc⟩ hs) hleft h

theorem perform_of_again {again : List Instruction → Stack → Run} (hagain : I.KeptBy again)
    {i : Instruction} (hi : I.admits i) (hs : I.holds s) (h : (perform e again i s).Leaves t) : I.holds t := by
  have hpush {v : Value} (hv : I.admits v.toInstruction) (h : Run.Leaves (some (Stack.push v s)) t) :
      I.holds t := by
    rw [← Run.Leaves.left_eq h]
    exact I.push hv hs
  cases i with
  | number x => exact hpush (v := .number x) hi h
  | boolean b => exact hpush (v := .boolean b) hi h
  | block origin body => exact hpush (v := .procedure ⟨origin, body⟩) hi h
  | operator op => exact I.execute_of_again hagain hs h

theorem runAll {step : Instruction → Stack → Run}
    (hstep : ∀ i s t, I.admits i → I.holds s → (step i s).Leaves t → I.holds t) : I.KeptBy (runAll step) := by
  intro body
  induction body with
  | nil =>
    intro s t _ hs h
    cases h
    exact hs
  | cons i is ih =>
    intro s t hbody hs h
    obtain ⟨hi, his⟩ := List.forall_mem_cons.mp hbody
    have hone := hstep i s
    unfold TypeFour.runAll at h
    cases hr : step i s with
    | none =>
      rw [hr] at h
      cases h
    | some r =>
      rw [hr] at h hone
      cases r with
      | ok a u => exact ih u t his (hone u hi hs .ok) h
      | error f u =>
        cases h
        exact hone _ hi hs .error

/-- **Replays.** -/
theorem replay (n : Nat) : I.KeptBy (replay e n) := by
  -- on the bound: what an operator chooses is replayed under the next smaller one
  induction n with
  | zero =>
    intro body s t _ _ h
    cases h
  | succ n ih => exact I.runAll fun _ _ _ hi hs h => I.perform_of_again ih hi hs h

/-- **An operator** with all that it replays. -/
theorem execute (hs : I.holds s) (h : (execute e (TypeFour.replay e n) op s).Leaves t) : I.holds t :=
  I.execute_of_again (I.replay n) hs h

/-! ## At every moment -/

/-- What stands before a choice keeps the invariant, and the choice does. -/
theorem chosenIn (h : Chosen e body s p t) (hbody : I.Admits body) (hs : I.holds s) :
    I.Admits p.body ∧ I.holds t := by
  obtain ⟨before, op, after, u, n, rfl, hbefore, hchoice⟩ := h
  have hu : I.holds u := by
    refine I.replay n before s u (fun i hi => hbody i (List.mem_append_left _ hi)) hs ?_
    rw [hbefore]
    exact .ok
  exact I.chooses hchoice hu

/-- **At every moment of a replay.** -/
theorem metIn (h : MetIn e body s u) (hbody : I.Admits body) (hs : I.holds s) : I.holds u := by
  induction h with
  | between hsplit hu =>
    subst hsplit
    exact I.replay _ _ _ _ (fun i hi => hbody i (List.mem_append_left _ hi)) hs hu
  | within hchosen _ ih =>
    obtain ⟨hp, ht⟩ := I.chosenIn hchosen hbody hs
    exact ih hp ht

/-- **At every moment of a session**, if it is so between the words. -/
theorem met {ws : List Word} {s : Session} (h : Session.Met e o ws s t)
    (hs : ∀ before u n, before <+: ws → Session.run e n o before s = some (.ok u) → I.holds u.stack) :
    I.holds t := by
  cases h with
  | between hbefore hu => exact hs _ _ _ hbefore hu
  | executed hsplit hu _ _ ht => exact I.execute (hs _ _ _ ⟨_, hsplit.symm⟩ hu) ht
  | within hchosen ht =>
    obtain ⟨before, w, after, u, n, op, hsplit, hu, -, -, hchoice⟩ := hchosen
    obtain ⟨hp, hall⟩ := I.chooses hchoice (hs _ _ _ ⟨_, hsplit.symm⟩ hu)
    exact I.metIn ht hp hall

/-! ## Between the words -/

section

variable (hadmits : ∀ i, I.admits i)

include hadmits

theorem deliver {v : Value} {s u : Session} (hs : I.holds s.stack) (hr : s.deliver v = .ok u) :
    I.holds u.stack := by
  obtain ⟨r, rs, -, rfl⟩ | ⟨-, t, hpush, rfl⟩ := Session.deliver_ok hr
  · exact hs
  · have ht := I.push (hadmits v.toInstruction) hs
    rwa [Action.left_of_ok hpush] at ht

/-- **One token**, if nothing is asked of instructions. -/
theorem accept {token : Token} {s u : Session} (hs : I.holds s.stack)
    (hr : s.accept e n o token = some (.ok u)) : I.holds u.stack := by
  have hoperate {op : Operator} (hr : s.operate e n op = some (.ok u)) : I.holds u.stack := by
    obtain ⟨r, rs, -, rfl⟩ | ⟨-, t, hx, rfl⟩ := Session.operate_ok hr
    · exact hs
    · have hleaves : (TypeFour.execute e (TypeFour.replay e n) op s.stack).Leaves t := by
        rw [hx]
        exact .ok
      exact I.execute hs hleaves
  cases token with
  | number x => exact I.deliver hadmits hs (v := .number x) (Option.some.inj hr)
  | boolean b => exact I.deliver hadmits hs (v := .boolean b) (Option.some.inj hr)
  | operator op =>
    cases op with
    | openBrace =>
      obtain ⟨-, rfl⟩ := Session.openBlock_ok (Option.some.inj hr)
      exact hs
    | closeBrace =>
      obtain ⟨-, -, rfl⟩ | ⟨-, rfl⟩ | ⟨d, -, ⟨-, rfl⟩ | ⟨r, rs, v, -, hdel, rfl⟩⟩ :=
        Session.closeBlock_ok (Option.some.inj hr)
      · exact hs
      · exact hs
      · exact hs
      · have hv : I.holds v.stack := I.deliver hadmits (s := { s with recordings := rs }) hs hdel
        exact hv
    | _ => exact hoperate hr

/-- **All words**, if nothing is asked of instructions. -/
theorem run {ws : List Word} {s u : Session} (hs : I.holds s.stack)
    (hr : Session.run e n o ws s = some (.ok u)) : I.holds u.stack := by
  induction ws generalizing s with
  | nil =>
    cases hr
    exact hs
  | cons w ws ih =>
    obtain ⟨t, -, ⟨-, hnone⟩ | ⟨v, hv, hr⟩⟩ := Session.run_cons_cases hr (by simp)
    · cases hnone
    · exact ih (I.accept hadmits hs hv) hr

end

end Invariant

end TypeFour
