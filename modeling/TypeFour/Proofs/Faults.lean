import TypeFour.Proofs.Actions
import TypeFour.Proofs.Bound

/-!
# `TypeFour.Proofs.Faults` — where faults come from

An evaluation fails in one of four ways. An operator or a push finds fault with the values on the stack. A
brace is one too many. A word means nothing. The data cannot be read, or ends too early. Each kind of fault
has its own source, and no other part of the evaluation raises it; so the fault tells which check failed,
and which policy or limit that check obeys.

Shape. One predicate on actions (`FailsOnOperands`) is shown of the primitive actions and carried to all
operators (`Composed.failsOnOperands`) and replays. Above them each step has one inversion lemma that says when
it fails and how (`accept_fault`, `ofWord_fault`, `finish_fault`).

## Contents
- `Fault.isOperand`, `Fault.isIssue`, `Fault.isTruncation` — the kinds of faults.
- `FailsOnOperands`, `behaviour_fails`, `replay_fails` — operators and replays.
- `Session.accept_fault`, `Token.ofWord_fault`, `Session.finish_fault` — tokens, words, the end of the data.
- `Session.run_fault` — the first word that fails.
-/

namespace TypeFour

/-! ## Kinds of faults -/

namespace Fault

/-- A fault that operators and pushes find with the values on the stack. -/
def isOperand : Fault → Bool
  | stackOverflow | stackUnderflow | typeCheck | rangeCheck | undefinedResult => true
  | _ => false

/-- A fault of a word that the lenient policy passes over. -/
def isIssue : Fault → Bool
  | unmatchedClose | malformedNumber _ | undefined _ => true
  | _ => false

/-- A fault of data that ends inside braces. -/
def isTruncation : Fault → Bool
  | truncated _ => true
  | _ => false

theorem isIssue_of_isOperand {f : Fault} (h : f.isOperand = true) : f.isIssue = false := by
  cases f <;> first | rfl | cases h

theorem isTruncation_of_isOperand {f : Fault} (h : f.isOperand = true) : f.isTruncation = false := by
  cases f <;> first | rfl | cases h

end Fault

/-! ## Actions on the stack -/

/-- If the action fails, it is on account of the values on the stack. -/
def FailsOnOperands {α : Type} (m : Action α) : Prop :=
  ∀ ⦃s f t⦄, m s = .error f t → f.isOperand = true

namespace FailsOnOperands

variable {α β : Type}

theorem pure (a : α) : FailsOnOperands (Pure.pure a) := by
  intro s f t h
  cases h

theorem throw {f : Fault} (hf : f.isOperand = true) :
    FailsOnOperands (MonadExcept.throw f : Action α) := by
  intro s g t h
  cases h
  exact hf

/-- **Sequencing.** -/
theorem bind {m : Action α} {k : α → Action β} (hm : FailsOnOperands m)
    (hk : ∀ a, FailsOnOperands (k a)) : FailsOnOperands (m >>= k) := by
  intro s f t h
  obtain hr | ⟨a, u, -, hrest⟩ := Action.error_of_bind h
  · exact hm hr
  · exact hk a hrest

/-! ### The primitive actions -/

theorem push (v : Value) : FailsOnOperands (Stack.push v) := by
  intro s f t h
  unfold Stack.push at h
  split at h <;> cases h
  rfl

theorem pop : FailsOnOperands Stack.pop := by
  intro s f t h
  unfold Stack.pop at h
  split at h <;> cases h
  rfl

theorem peek (n : Nat) : FailsOnOperands (Stack.peek n) := by
  intro s f t h
  unfold Stack.peek at h
  split at h <;> cases h
  rfl

theorem exch : FailsOnOperands Stack.exch := by
  intro s f t h
  unfold Stack.exch at h
  split at h <;> cases h
  rfl

theorem copy (n : Nat) : FailsOnOperands (Stack.copy n) := by
  intro s f t h
  unfold Stack.copy at h
  by_cases hn : s.size < n
  · rw [if_pos hn] at h
    cases h
    rfl
  · rw [if_neg hn] at h
    split at h <;> cases h
    rfl

theorem roll (n : Nat) (j : Int) : FailsOnOperands (Stack.roll n j) := by
  intro s f t h
  unfold Stack.roll at h
  split at h <;> cases h
  rfl

end FailsOnOperands

theorem isOperand_of_isRefusal {f : Fault} (h : f.isRefusal = true) : f.isOperand = true := by
  cases f <;> first | rfl | cases h

/-- **Actions put together from primitive ones** fail on account of the values on the stack. -/
theorem Composed.failsOnOperands {pushes : Prop} {α : Type} {act : Action α} (h : Composed pushes act) :
    FailsOnOperands act := by
  induction h with
  | push _ v => exact .push v
  | copy _ n => exact .copy n
  | pop => exact .pop
  | peek n => exact .peek n
  | exch => exact .exch
  | roll n j => exact .roll n j
  | pure a => exact .pure a
  | throw hf => exact .throw (isOperand_of_isRefusal hf)
  | bind _ _ ihm ihk => exact .bind ihm ihk

/-! ## Operators and replays -/

/-- If the behaviour fails before anything is replayed, it is on account of the values on the stack. -/
def Behaviour.FailsOnOperands : Behaviour → Prop
  | plain act => TypeFour.FailsOnOperands act
  | choosing choice => TypeFour.FailsOnOperands choice

/-- **Every operator** fails on account of its operands. -/
theorem behaviour_fails (e : Elementary) (op : Operator) :
    (op.behaviour e).FailsOnOperands := by
  cases hb : op.behaviour e with
  | plain act => exact (composed_of_plain hb).failsOnOperands
  | choosing choice => exact (composed_of_choosing hb).failsOnOperands

/-- If the run fails, it is on account of the values on the stack. -/
def Run.FailsOnOperands (r : Run) : Prop :=
  ∀ ⦃f t⦄, r = some (.error f t) → f.isOperand = true

variable {e : Elementary} {n : Nat} {o : Options} {f : Fault}

theorem runAll_fails {step : Instruction → Stack → Run} (hstep : ∀ i s, (step i s).FailsOnOperands)
    (is : List Instruction) (s : Stack) : (runAll step is s).FailsOnOperands := by
  intro f t h
  induction is generalizing s with
  | nil => cases h
  | cons i is ih =>
    rw [runAll] at h
    cases hi : step i s with
    | none =>
      rw [hi] at h
      cases h
    | some r =>
      rw [hi] at h
      cases r with
      | ok _ u => exact ih u h
      | error g u =>
        cases h
        exact hstep i s hi

section

variable {again : List Instruction → Stack → Run} (hagain : ∀ is s, (again is s).FailsOnOperands)

include hagain

theorem execute_fails (op : Operator) (s : Stack) : (execute e again op s).FailsOnOperands := by
  intro f t h
  have hop := behaviour_fails e op
  unfold execute at h
  cases hb : op.behaviour e with
  | plain act =>
    rw [hb] at h hop
    exact hop (Option.some.inj h)
  | choosing choice =>
    rw [hb] at h hop
    simp only at h
    cases hc : choice s with
    | error g u =>
      rw [hc] at h
      cases h
      exact hop hc
    | ok c u =>
      rw [hc] at h
      cases c with
      | none => cases h
      | some p => exact hagain p.body u h

theorem perform_fails (i : Instruction) (s : Stack) : (perform e again i s).FailsOnOperands := by
  intro f t h
  cases i with
  | number x => exact FailsOnOperands.push _ (Option.some.inj h)
  | boolean b => exact FailsOnOperands.push _ (Option.some.inj h)
  | block origin body => exact FailsOnOperands.push _ (Option.some.inj h)
  | operator op => exact execute_fails hagain op s h

end

/-- **Every replay** fails on account of the values on the stack. -/
theorem replay_fails (e : Elementary) (n : Nat) (is : List Instruction) (s : Stack) :
    (replay e n is s).FailsOnOperands := by
  induction n generalizing is s with
  | zero =>
    intro f t h
    cases h
  | succ n ih => exact runAll_fails (perform_fails ih) is s

theorem Action.outcome_eq_error {α : Type} {act : Action α} {s : Stack}
    (h : act.outcome s = .error f) : ∃ t, act s = .error f t := by
  unfold outcome at h
  cases hr : act s with
  | ok a t =>
    rw [hr] at h
    cases h
  | error g t =>
    rw [hr] at h
    cases h
    exact ⟨t, rfl⟩

/-- Inputs that find no room. -/
theorem isOperand_of_inputs {inputs : List Float} {s : Stack}
    (h : Action.outcome (Stack.pushNumbers inputs) s = .error f) : f.isOperand = true := by
  obtain ⟨t, ht⟩ := Action.outcome_eq_error h
  exact (Composed.pushNumbers inputs).failsOnOperands ht

/-! ## Tokens -/

namespace Session

variable {s u : Session}

theorem deliver_fault {v : Value} (h : s.deliver v = .error f) : f.isOperand = true := by
  unfold deliver at h
  cases hrec : s.recordings with
  | cons r rs =>
    rw [hrec] at h
    cases h
  | nil =>
    rw [hrec] at h
    cases hp : Action.outcome (Stack.push v) s.stack with
    | ok t =>
      rw [hp] at h
      cases h
    | error g =>
      rw [hp] at h
      cases h
      obtain ⟨t, ht⟩ := Action.outcome_eq_error hp
      exact FailsOnOperands.push v ht

theorem operate_fault {op : Operator} (h : s.operate e n op = some (.error f)) : f.isOperand = true := by
  unfold operate at h
  cases hrec : s.recordings with
  | cons r rs =>
    rw [hrec] at h
    cases h
  | nil =>
    rw [hrec] at h
    simp only at h
    cases hx : execute e (replay e n) op s.stack with
    | none =>
      rw [hx] at h
      cases h
    | some r =>
      rw [hx] at h
      cases r with
      | ok _ t => cases h
      | error g t =>
        cases h
        exact execute_fails (replay_fails e n) op s.stack hx

theorem openBlock_fault (h : s.openBlock o = .error f) : f = .limitCheck ∧ o.maxNestingDepth ≤ s.depth := by
  unfold openBlock at h
  by_cases hlim : o.maxNestingDepth ≤ s.depth
  · rw [if_pos hlim] at h
    cases h
    exact ⟨rfl, hlim⟩
  · rw [if_neg hlim] at h
    cases h

theorem closeBlock_fault (h : s.closeBlock o = .error f) :
    f.isOperand = true ∨ f = .unmatchedClose ∧ s.depth = 0 ∧ o.unknownTokens = .strict := by
  obtain ⟨stack, recordings, depth, opened⟩ := s
  unfold closeBlock at h
  match depth, recordings with
  | 0, _ =>
    cases hpol : o.unknownTokens with
    | strict =>
      simp only [hpol] at h
      cases h
      exact .inr ⟨rfl, rfl, rfl⟩
    | lenient =>
      simp only [hpol] at h
      cases h
  | 1, _ => cases h
  | d + 2, [] => cases h
  | d + 2, r :: rs =>
    simp only at h
    cases hdel : deliver (.procedure r.toProcedure) ⟨stack, rs, d + 2, opened⟩ with
    | ok v =>
      rw [hdel] at h
      cases h
    | error g =>
      rw [hdel] at h
      cases h
      exact .inl (deliver_fault hdel)

/-- **A token that fails.** Either it finds fault with the values on the stack, or it is a brace: an opening
one too many, or a closing one that the strict policy does not let pass. -/
theorem accept_fault {t : Token} (h : s.accept e n o t = some (.error f)) :
    f.isOperand = true ∨
      (f = .limitCheck ∧ t = .operator .openBrace ∧ o.maxNestingDepth ≤ s.depth) ∨
      (f = .unmatchedClose ∧ t = .operator .closeBrace ∧ s.depth = 0 ∧ o.unknownTokens = .strict) := by
  cases t with
  | number x => exact .inl (deliver_fault (Option.some.inj h))
  | boolean b => exact .inl (deliver_fault (Option.some.inj h))
  | operator op =>
    cases op with
    | openBrace =>
      obtain ⟨hf, hlim⟩ := openBlock_fault (Option.some.inj h)
      exact .inr (.inl ⟨hf, rfl, hlim⟩)
    | closeBrace =>
      rcases closeBlock_fault (Option.some.inj h) with hf | ⟨hf, hdepth, hpol⟩
      · exact .inl hf
      · exact .inr (.inr ⟨hf, rfl, hdepth, hpol⟩)
    | _ => exact .inl (operate_fault (e := e) (n := n) h)

/-- Only an opening brace meets the limit on nesting. -/
theorem accept_eq_limitCheck_iff {t : Token} :
    s.accept e n o t = some (.error .limitCheck) ↔
      t = .operator .openBrace ∧ o.maxNestingDepth ≤ s.depth := by
  constructor
  · intro h
    rcases accept_fault h with hf | ⟨-, ht, hlim⟩ | ⟨hf, -⟩
    · cases hf
    · exact ⟨ht, hlim⟩
    · cases hf
  · rintro ⟨rfl, hlim⟩
    show some (s.openBlock o) = _
    rw [openBlock, if_pos hlim]

end Session

/-! ## Words -/

namespace Token

variable {policy : UnknownTokens} {w : Word}

theorem ofName_fault (h : ofName policy w = .error f) : policy = .strict ∧ f = .undefined w := by
  unfold ofName at h
  split at h
  · cases h
    exact ⟨rfl, rfl⟩
  · cases h

theorem ofNumeral_fault (h : ofNumeral policy w = .error f) :
    policy = .strict ∧ f = .malformedNumber w := by
  unfold ofNumeral at h
  cases hn : numberOf? w with
  | some x =>
    rw [hn] at h
    cases h
  | none =>
    rw [hn] at h
    cases policy with
    | strict =>
      cases h
      exact ⟨rfl, rfl⟩
    | lenient => cases h

/-- **A word that means nothing** is a fault under the strict policy only. -/
theorem ofWord_fault (h : ofWord policy w = .error f) :
    policy = .strict ∧ (f = .malformedNumber w ∨ f = .undefined w) := by
  unfold ofWord at h
  split at h
  · exact (ofName_fault h).imp_right .inr
  · split at h
    · cases h
    · split at h
      · split at h
        · cases h
        · exact (ofName_fault h).imp_right .inr
      · split at h
        · exact (ofNumeral_fault h).imp_right .inl
        · exact (ofName_fault h).imp_right .inr

end Token

namespace Session

/-- **The first word that fails.** The words before it have all been accepted. -/
theorem run_fault {ws : List Word} {s : Session} (h : run e n o ws s = some (.error f)) :
    ∃ before w after u, ws = before ++ w :: after ∧ run e n o before s = some (.ok u) ∧
      (Token.ofWord o.unknownTokens w = .error f ∨
        ∃ t, Token.ofWord o.unknownTokens w = .ok t ∧ u.accept e n o t = some (.error f)) := by
  induction ws generalizing s with
  | nil => cases h
  | cons w ws ih =>
    cases ht : Token.ofWord o.unknownTokens w with
    | error g =>
      rw [run, ht] at h
      cases h
      exact ⟨[], w, ws, s, rfl, rfl, .inl ht⟩
    | ok t =>
      rw [run_cons ht] at h
      cases ha : s.accept e n o t with
      | none =>
        rw [ha] at h
        cases h
      | some r =>
        rw [ha] at h
        cases r with
        | error g =>
          cases h
          exact ⟨[], w, ws, s, rfl, rfl, .inr ⟨t, ht, ha⟩⟩
        | ok v =>
          obtain ⟨before, w', after, u, rfl, hbefore, hw⟩ := ih h
          exact ⟨w :: before, w', after, u, rfl, (run_cons_of_ok ht ha).trans hbefore, hw⟩

/-- A run that fails goes on failing in the same way, whatever words come after. -/
theorem run_append_of_fault {ws : List Word} {s : Session} (h : run e n o ws s = some (.error f))
    (rest : List Word) : run e n o (ws ++ rest) s = some (.error f) := by
  rw [run_append, h]
  rfl

/-- The lenient policy lets no issue fail. -/
theorem strict_of_run_fault {ws : List Word} {s : Session} (h : run e n o ws s = some (.error f))
    (hf : f.isIssue = true) : o.unknownTokens = .strict := by
  obtain ⟨before, w, after, u, -, -, hw | ⟨t, -, ha⟩⟩ := run_fault h
  · exact (Token.ofWord_fault hw).1
  · rcases accept_fault ha with hop | ⟨rfl, -⟩ | ⟨-, -, -, hpol⟩
    · rw [Fault.isIssue_of_isOperand hop] at hf
      cases hf
    · cases hf
    · exact hpol

/-- Words are not asked whether the data ends inside braces. -/
theorem not_isTruncation_of_run_fault {ws : List Word} {s : Session}
    (h : run e n o ws s = some (.error f)) : f.isTruncation = false := by
  obtain ⟨before, w, after, u, -, -, hw | ⟨t, -, ha⟩⟩ := run_fault h
  · rcases (Token.ofWord_fault hw).2 with rfl | rfl <;> rfl
  · rcases accept_fault ha with hop | ⟨rfl, -⟩ | ⟨rfl, -⟩
    · exact Fault.isTruncation_of_isOperand hop
    · rfl
    · rfl

/-! ## The end of the data -/

theorem closeAll_fails (rs : List Recording) : FailsOnOperands (closeAll rs) := by
  have haround (p : Procedure) (rs : List Recording) : FailsOnOperands (closeAround p rs) := by
    induction rs generalizing p with
    | nil => exact .push _
    | cons r rs ih => exact ih _
  cases rs with
  | nil => exact .pure ()
  | cons r rs => exact haround _ rs

/-- **The end of the data** fails inside braces: where that is not tolerated, or where the procedure that
it closes finds no room. -/
theorem finish_fault {s : Session} (h : s.finish o = .error f) :
    s.depth ≠ 0 ∧ (f = .truncated s.depth ∧ o.truncatedInput = .fail ∨
      f.isOperand = true ∧ o.truncatedInput = .tolerate) := by
  unfold finish at h
  by_cases hdepth : s.depth = 0
  · rw [if_pos hdepth] at h
    cases h
  · rw [if_neg hdepth] at h
    refine ⟨hdepth, ?_⟩
    cases hpol : o.truncatedInput with
    | fail =>
      simp only [hpol] at h
      cases h
      exact .inl ⟨rfl, rfl⟩
    | tolerate =>
      simp only [hpol] at h
      obtain ⟨t, ht⟩ := Action.outcome_eq_error h
      exact .inr ⟨closeAll_fails s.recordings ht, rfl⟩

end Session

end TypeFour
