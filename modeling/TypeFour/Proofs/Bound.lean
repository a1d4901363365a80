import TypeFour.Session

/-!
# `TypeFour.Proofs.Bound` — what the bound on replays means

`replay` and `evaluate` are given how many replays may be under way at once. This file says what that number
is, without it: a chain of procedures, each chosen by an operator while the one before it is replayed
(`UnderWay`). Evaluation has no result exactly when such a chain is longer than the bound, and a result
does not depend on the bound that it was found with.

## Contents
- `replay_mono`, `evaluate_mono`, `evaluate_unique` — a larger bound changes no result.
- `Operator.Chooses`, `Chosen`, `UnderWayIn` — the replays under way while instructions are carried out.
- `replay_eq_none_iff` — the bound is reached exactly when that many replays are under way.
- `Session.Chosen`, `UnderWay`, `evaluate_eq_none_iff` — the same for a whole evaluation.
-/

namespace TypeFour

variable {e : Elementary} {n m : Nat} {o : Options}

/-! ## A larger bound -/

/-- Every run with a result on the left has the same result on the right. -/
abbrev RunsExtend {α : Type} (run run' : α → Stack → Run) : Prop :=
  ∀ a s r, run a s = some r → run' a s = some r

theorem runAll_mono {step step' : Instruction → Stack → Run} (h : RunsExtend step step') :
    RunsExtend (runAll step) (runAll step') := by
  intro is
  induction is with
  | nil => exact fun s r hr => hr
  | cons i is ih =>
    intro s r hr
    unfold runAll at hr ⊢
    cases hi : step i s with
    | none =>
      rw [hi] at hr
      cases hr
    | some ri =>
      rw [hi] at hr
      rw [h i s ri hi]
      cases ri with
      | ok _ t => exact ih t r hr
      | error f t => exact hr

section

variable {again again' : List Instruction → Stack → Run} (h : RunsExtend again again')

include h

theorem execute_mono : RunsExtend (execute e again) (execute e again') := by
  intro op s r hr
  unfold execute at hr ⊢
  cases hb : op.behaviour e with
  | plain act =>
    rw [hb] at hr
    exact hr
  | choosing choice =>
    rw [hb] at hr
    simp only at hr ⊢
    cases hc : choice s with
    | ok c t =>
      rw [hc] at hr
      cases c with
      | none => exact hr
      | some p => exact h p.body t r hr
    | error f t =>
      rw [hc] at hr
      exact hr

theorem perform_mono : RunsExtend (perform e again) (perform e again') := by
  intro i s r hr
  cases i with
  | number x => exact hr
  | boolean b => exact hr
  | block origin body => exact hr
  | operator op => exact execute_mono h op s r hr

end

/-- **A replay that ends** ends in the same way under every larger bound. -/
theorem replay_mono (hnm : n ≤ m) : RunsExtend (replay e n) (replay e m) := by
  -- on the smaller bound, which the larger one stays above in every replay inside
  induction n generalizing m with
  | zero =>
    intro is s r hr
    cases hr
  | succ n ih =>
    obtain ⟨m, rfl⟩ := Nat.exists_eq_succ_of_ne_zero (Nat.ne_of_gt (Nat.lt_of_lt_of_le n.succ_pos hnm))
    exact runAll_mono (perform_mono (ih (Nat.le_of_succ_le_succ hnm)))

/-- A replay that ends under two bounds ends in one way. -/
theorem replay_unique {is : List Instruction} {s : Stack} {r r' : EStateM.Result Fault Stack Unit}
    (hn : replay e n is s = some r) (hm : replay e m is s = some r') : r = r' := by
  have h := replay_mono (Nat.le_max_left n m) is s r hn
  have h' := replay_mono (Nat.le_max_right n m) is s r' hm
  exact Option.some.inj (h.symm.trans h')

namespace Session

theorem operate_mono (hnm : n ≤ m) {op : Operator} {s : Session} {r : Except Fault Session}
    (hr : s.operate e n op = some r) : s.operate e m op = some r := by
  unfold operate at hr ⊢
  cases hrec : s.recordings with
  | cons r rs =>
    rw [hrec] at hr
    exact hr
  | nil =>
    rw [hrec] at hr
    simp only at hr ⊢
    cases hx : execute e (replay e n) op s.stack with
    | none =>
      rw [hx] at hr
      cases hr
    | some x =>
      rw [hx] at hr
      rw [execute_mono (replay_mono hnm) op s.stack x hx]
      exact hr

theorem accept_mono (hnm : n ≤ m) {t : Token} {s : Session} {r : Except Fault Session}
    (hr : s.accept e n o t = some r) : s.accept e m o t = some r := by
  cases t with
  | number x => exact hr
  | boolean b => exact hr
  | operator op =>
    cases op with
    | openBrace => exact hr
    | closeBrace => exact hr
    | _ => exact operate_mono (e := e) hnm hr

theorem run_mono (hnm : n ≤ m) {ws : List Word} {s : Session} {r : Except Fault Session}
    (hr : run e n o ws s = some r) : run e m o ws s = some r := by
  induction ws generalizing s with
  | nil => exact hr
  | cons w ws ih =>
    unfold run at hr ⊢
    cases ht : Token.ofWord o.unknownTokens w with
    | error f =>
      rw [ht] at hr
      exact hr
    | ok t =>
      rw [ht] at hr
      simp only at hr ⊢
      cases ha : s.accept e n o t with
      | none =>
        rw [ha] at hr
        cases hr
      | some r' =>
        rw [ha] at hr
        rw [accept_mono hnm ha]
        cases r' with
        | error f => exact hr
        | ok s' => exact ih hr

end Session

/-- **An evaluation that ends** ends in the same way under every larger bound. -/
theorem evaluate_mono (hnm : n ≤ m) {source : Source} {inputs : List Float} {r : Except Fault Stack}
    (hr : evaluate e n o source inputs = some r) : evaluate e m o source inputs = some r := by
  unfold evaluate at hr ⊢
  cases hp : Action.outcome (Stack.pushNumbers inputs) { limit := o.maxStackDepth } with
  | error f =>
    rw [hp] at hr
    exact hr
  | ok stack =>
    rw [hp] at hr
    obtain ⟨r', hr', rfl⟩ := Option.map_eq_some_iff.mp hr
    exact Option.map_eq_some_iff.mpr ⟨r', Session.run_mono hnm hr', rfl⟩

/-- An evaluation that ends under two bounds ends in one way. -/
theorem evaluate_unique {source : Source} {inputs : List Float} {r r' : Except Fault Stack}
    (hn : evaluate e n o source inputs = some r) (hm : evaluate e m o source inputs = some r') :
    r = r' := by
  have h := evaluate_mono (Nat.le_max_left n m) hn
  have h' := evaluate_mono (Nat.le_max_right n m) hm
  exact Option.some.inj (h.symm.trans h')

/-! ## Replays under way -/

/-- With `s` on the stack, the operator chooses `p` to be replayed and leaves `t`. -/
def Operator.Chooses (e : Elementary) (op : Operator) (s : Stack) (p : Procedure) (t : Stack) : Prop :=
  ∃ choice, op.behaviour e = .choosing choice ∧ choice s = .ok (some p) t

/-- Carrying out `body` from `s` comes to an operator that chooses `p` and leaves `t`. What stands before
the operator ends, whatever bound on replays that takes. -/
def Chosen (e : Elementary) (body : List Instruction) (s : Stack) (p : Procedure) (t : Stack) : Prop :=
  ∃ before op after u n, body = before ++ .operator op :: after ∧
    replay e n before s = some (.ok () u) ∧ op.Chooses e u p t

/-- The procedures that are being replayed at one moment while `body` is carried out from `s`, the outermost
first: an operator of `body` chose the first of them, and an operator of each of them the next. -/
inductive UnderWayIn (e : Elementary) : List Instruction → Stack → List Procedure → Prop where
  | nil {body s} : UnderWayIn e body s []
  | cons {body s p t ps} : Chosen e body s p t → UnderWayIn e p.body t ps → UnderWayIn e body s (p :: ps)

/-- Goes on with the stack that a run leaves, if it succeeds. -/
def Run.andThen (r : Run) (k : Stack → Run) : Run :=
  match r with
  | some (.ok () t) => k t
  | other => other

section

variable {step : Instruction → Stack → Run} {i : Instruction} {is : List Instruction} {s t : Stack}

theorem runAll_cons_of_ok (h : step i s = some (.ok () t)) :
    runAll step (i :: is) s = runAll step is t := by
  rw [runAll, h]

theorem runAll_cons_of_none (h : step i s = none) : runAll step (i :: is) s = none := by
  rw [runAll, h]

theorem runAll_append (is js : List Instruction) (s : Stack) :
    runAll step (is ++ js) s = (runAll step is s).andThen (runAll step js) := by
  induction is generalizing s with
  | nil => rfl
  | cons i is ih =>
    rw [List.cons_append, runAll, runAll]
    cases step i s with
    | none => rfl
    | some r =>
      cases r with
      | ok _ t => exact ih t
      | error f t => rfl

end

/-- A run that does not succeed stops at a step that does not, with the same outcome. -/
theorem runAll_stops {step : Instruction → Stack → Run} {body : List Instruction} {s : Stack} {r : Run}
    (h : runAll step body s = r) (hr : ∀ t, r ≠ some (.ok () t)) : ∃ before i after u,
      body = before ++ i :: after ∧ runAll step before s = some (.ok () u) ∧ step i u = r := by
  induction body generalizing s with
  | nil => exact absurd h.symm (hr s)
  | cons i is ih =>
    cases hi : step i s with
    | none =>
      rw [runAll_cons_of_none hi] at h
      exact ⟨[], i, is, s, rfl, rfl, hi.trans h⟩
    | some ri =>
      cases ri with
      | error f u =>
        rw [runAll, hi] at h
        exact ⟨[], i, is, s, rfl, rfl, hi.trans h⟩
      | ok _ u =>
        rw [runAll_cons_of_ok hi] at h
        obtain ⟨before, j, after, v, rfl, hbefore, hj⟩ := ih h
        exact ⟨i :: before, j, after, v, rfl, (runAll_cons_of_ok hi).trans hbefore, hj⟩

/-- A run that has no result stops at a step that has none. -/
theorem runAll_eq_none {step : Instruction → Stack → Run} {body : List Instruction} {s : Stack}
    (h : runAll step body s = none) : ∃ before i after u, body = before ++ i :: after ∧
      runAll step before s = some (.ok () u) ∧ step i u = none :=
  runAll_stops h nofun

theorem execute_eq_none_iff {again : List Instruction → Stack → Run} {op : Operator} {s : Stack} :
    execute e again op s = none ↔ ∃ p t, op.Chooses e s p t ∧ again p.body t = none := by
  unfold Operator.Chooses execute
  cases hb : op.behaviour e with
  | plain act => simp
  | choosing choice =>
    simp only [Behaviour.choosing.injEq, exists_eq_left']
    cases hc : choice s with
    | error f t => simp
    | ok c t =>
      cases c with
      | none => simp
      | some p =>
        constructor
        · exact fun h => ⟨p, t, rfl, h⟩
        · rintro ⟨p, t, ⟨rfl, rfl⟩, h⟩
          exact h

/-- Only an operator can reach the bound. -/
theorem perform_eq_none_iff {again : List Instruction → Stack → Run} {i : Instruction} {s : Stack} :
    perform e again i s = none ↔
      ∃ op p t, i = .operator op ∧ op.Chooses e s p t ∧ again p.body t = none := by
  cases i with
  | number x => simp [perform]
  | boolean b => simp [perform]
  | block origin body => simp [perform]
  | operator op => simp [perform, execute_eq_none_iff]

/-- **One replay deeper.** The bound is reached when it is reached in a procedure that is chosen. -/
theorem replay_succ_eq_none_iff {body : List Instruction} {s : Stack} :
    replay e (n + 1) body s = none ↔ ∃ p t, Chosen e body s p t ∧ replay e n p.body t = none := by
  constructor
  · intro h
    obtain ⟨before, i, after, u, rfl, hbefore, hi⟩ := runAll_eq_none h
    obtain ⟨op, p, t, rfl, hop, hp⟩ := perform_eq_none_iff.mp hi
    exact ⟨p, t, ⟨before, op, after, u, n + 1, rfl, hbefore, hop⟩, hp⟩
  · rintro ⟨p, t, ⟨before, op, after, u, m, rfl, hbefore, hop⟩, hp⟩
    show runAll (perform e (replay e n)) (before ++ .operator op :: after) s = none
    rw [runAll_append]
    show (replay e (n + 1) before s).andThen _ = none
    -- either what stands before the operator reaches the bound, or it ends as it does under `m`
    cases hb : replay e (n + 1) before s with
    | none => rfl
    | some r =>
      obtain rfl := replay_unique hb hbefore
      exact runAll_cons_of_none (perform_eq_none_iff.mpr ⟨op, p, t, rfl, hop, hp⟩)

/-- **The bound on replays is reached** exactly when that many are under way. -/
theorem replay_eq_none_iff {body : List Instruction} {s : Stack} :
    replay e n body s = none ↔ ∃ ps, UnderWayIn e body s ps ∧ ps.length = n := by
  -- on the bound: the procedure that is chosen is the first of the chain
  induction n generalizing body s with
  | zero =>
    refine ⟨fun _ => ⟨[], .nil, rfl⟩, fun _ => rfl⟩
  | succ n ih =>
    rw [replay_succ_eq_none_iff]
    constructor
    · rintro ⟨p, t, hchosen, hp⟩
      obtain ⟨ps, hps, hlen⟩ := ih.mp hp
      exact ⟨p :: ps, .cons hchosen hps, by rw [List.length_cons, hlen]⟩
    · rintro ⟨ps, hps, hlen⟩
      cases hps with
      | nil => cases hlen
      | @cons _ _ p t ps hchosen hps =>
        exact ⟨p, t, hchosen, ih.mpr ⟨ps, hps, Nat.succ.inj hlen⟩⟩

/-- The replays at the start of a chain are under way before the later ones. -/
theorem UnderWayIn.take {body : List Instruction} {s : Stack} {ps : List Procedure}
    (h : UnderWayIn e body s ps) (k : Nat) : UnderWayIn e body s (ps.take k) := by
  induction h generalizing k with
  | nil =>
    rw [List.take_nil]
    exact .nil
  | cons hchosen _ ih =>
    cases k with
    | zero => exact .nil
    | succ k => exact .cons hchosen (ih k)

/-! ## A whole evaluation -/

/-- Goes on with the result of an evaluation, if there is one and it is no fault. -/
def Outcome.andThen {α β : Type} (r : Outcome α) (k : α → Outcome β) : Outcome β :=
  match r with
  | some (.ok a) => k a
  | some (.error f) => some (.error f)
  | none => none

/-- Working through words from `s` comes to an operator that is executed, chooses `p` and leaves `t`. -/
def Session.Chosen (e : Elementary) (o : Options) (ws : List Word) (s : Session) (p : Procedure)
    (t : Stack) : Prop :=
  ∃ before w after u n op, ws = before ++ w :: after ∧ Session.run e n o before s = some (.ok u) ∧
    Token.ofWord o.unknownTokens w = .ok (.operator op) ∧ u.recordings = [] ∧ op.Chooses e u.stack p t

/-- The procedures that are being replayed at one moment of an evaluation, the outermost first: an operator
of the program chose the first of them, and an operator of each of them the next. -/
inductive UnderWay (e : Elementary) (o : Options) (source : Source) (inputs : List Float) :
    List Procedure → Prop where
  | nil : UnderWay e o source inputs []
  | cons {stack p t ps} :
      Action.outcome (Stack.pushNumbers inputs) { limit := o.maxStackDepth } = .ok stack →
      Session.Chosen e o (Reader.ofSource o.bufferCapacity source).transcript.words { stack } p t →
      UnderWayIn e p.body t ps → UnderWay e o source inputs (p :: ps)

namespace Session

theorem operate_eq_none_iff {op : Operator} {s : Session} :
    s.operate e n op = none ↔
      s.recordings = [] ∧ ∃ p t, op.Chooses e s.stack p t ∧ replay e n p.body t = none := by
  rw [← execute_eq_none_iff]
  unfold operate
  cases s.recordings with
  | cons r rs => simp
  | nil =>
    simp only [true_and]
    cases execute e (replay e n) op s.stack with
    | none => simp
    | some r => cases r <;> simp

/-- The braces choose nothing. -/
theorem accept_eq_none_iff {t : Token} {s : Session} :
    s.accept e n o t = none ↔ ∃ op p u, t = .operator op ∧ s.recordings = [] ∧
      op.Chooses e s.stack p u ∧ replay e n p.body u = none := by
  cases t with
  | number x => simp [accept]
  | boolean b => simp [accept]
  | operator op =>
    have hoperate : s.operate e n op = none ↔ ∃ op' p u, Token.operator op = .operator op' ∧
        s.recordings = [] ∧ op'.Chooses e s.stack p u ∧ replay e n p.body u = none := by
      rw [operate_eq_none_iff]
      simp
    cases op with
    | openBrace => simp [accept, Operator.Chooses, Operator.behaviour]
    | closeBrace => simp [accept, Operator.Chooses, Operator.behaviour]
    | _ => exact hoperate

section

variable {w : Word} {ws : List Word} {s u : Session} {t : Token}

theorem run_cons (ht : Token.ofWord o.unknownTokens w = .ok t) :
    run e n o (w :: ws) s = Outcome.andThen (s.accept e n o t) (run e n o ws) := by
  rw [run, ht]
  simp only
  cases s.accept e n o t with
  | none => rfl
  | some r => cases r <;> rfl

theorem run_cons_of_ok (ht : Token.ofWord o.unknownTokens w = .ok t)
    (hu : s.accept e n o t = some (.ok u)) : run e n o (w :: ws) s = run e n o ws u := by
  rw [run_cons ht, hu]
  rfl

theorem run_cons_of_none (ht : Token.ofWord o.unknownTokens w = .ok t)
    (hu : s.accept e n o t = none) : run e n o (w :: ws) s = none := by
  rw [run_cons ht, hu]
  rfl

/-- The first word of a run that does not fail has a meaning, which is accepted. -/
theorem run_cons_cases {r : Outcome Session} (h : run e n o (w :: ws) s = r)
    (hr : ∀ f, r ≠ some (.error f)) : ∃ t, Token.ofWord o.unknownTokens w = .ok t ∧
      ((s.accept e n o t = none ∧ r = none) ∨
        ∃ u, s.accept e n o t = some (.ok u) ∧ run e n o ws u = r) := by
  rw [run] at h
  cases ht : Token.ofWord o.unknownTokens w with
  | error f =>
    rw [ht] at h
    exact absurd h.symm (hr f)
  | ok t =>
    rw [ht] at h
    refine ⟨t, rfl, ?_⟩
    simp only at h
    cases ha : s.accept e n o t with
    | none =>
      rw [ha] at h
      exact .inl ⟨rfl, h.symm⟩
    | some r' =>
      rw [ha] at h
      cases r' with
      | error f => exact absurd h.symm (hr f)
      | ok u => exact .inr ⟨u, rfl, h⟩

end

theorem run_append (ws rest : List Word) (s : Session) :
    run e n o (ws ++ rest) s = (run e n o ws s).andThen (run e n o rest) := by
  induction ws generalizing s with
  | nil => rfl
  | cons w ws ih =>
    rw [List.cons_append, run, run]
    cases Token.ofWord o.unknownTokens w with
    | error f => rfl
    | ok t =>
      simp only
      cases s.accept e n o t with
      | none => rfl
      | some r =>
        cases r with
        | error f => rfl
        | ok u => exact ih u

/-- A run that has no result stops at a token that has none. -/
theorem run_eq_none {ws : List Word} {s : Session} (h : run e n o ws s = none) :
    ∃ before w after u t, ws = before ++ w :: after ∧ run e n o before s = some (.ok u) ∧
      Token.ofWord o.unknownTokens w = .ok t ∧ u.accept e n o t = none := by
  induction ws generalizing s with
  | nil => cases h
  | cons w ws ih =>
    obtain ⟨t, ht, ⟨hnone, -⟩ | ⟨v, hv, h⟩⟩ := run_cons_cases h (by simp)
    · exact ⟨[], w, ws, s, t, rfl, rfl, ht, hnone⟩
    · obtain ⟨before, w', after, u, t', rfl, hbefore, ht', hnone⟩ := ih h
      exact ⟨w :: before, w', after, u, t', rfl, (run_cons_of_ok ht hv).trans hbefore, ht', hnone⟩

/-- **The session comes to the bound** when it is reached in a procedure that is chosen. -/
theorem run_eq_none_iff {ws : List Word} {s : Session} :
    run e n o ws s = none ↔ ∃ p t, Session.Chosen e o ws s p t ∧ replay e n p.body t = none := by
  constructor
  · intro h
    obtain ⟨before, w, after, u, token, rfl, hbefore, ht, hnone⟩ := run_eq_none h
    obtain ⟨op, p, t, rfl, hrec, hop, hp⟩ := accept_eq_none_iff.mp hnone
    exact ⟨p, t, ⟨before, w, after, u, n, op, rfl, hbefore, ht, hrec, hop⟩, hp⟩
  · rintro ⟨p, t, ⟨before, w, after, u, m, op, rfl, hbefore, ht, hrec, hop⟩, hp⟩
    rw [run_append]
    cases hb : run e n o before s with
    | none => rfl
    | some r =>
      -- the result does not depend on the bound
      have hr := run_mono (Nat.le_max_left n m) hb
      have hu := run_mono (Nat.le_max_right n m) hbefore
      obtain rfl := Option.some.inj (hr.symm.trans hu)
      have hnone := (accept_eq_none_iff (o := o)).mpr ⟨op, p, t, rfl, hrec, hop, hp⟩
      exact run_cons_of_none ht hnone

end Session

/-- **The bound on replays is reached in an evaluation** exactly when more are under way at some moment. -/
theorem evaluate_eq_none_iff {source : Source} {inputs : List Float} :
    evaluate e n o source inputs = none ↔ ∃ ps, UnderWay e o source inputs ps ∧ n < ps.length := by
  unfold evaluate
  constructor
  · intro h
    cases hp : Action.outcome (Stack.pushNumbers inputs) { limit := o.maxStackDepth } with
    | error f =>
      rw [hp] at h
      cases h
    | ok stack =>
      rw [hp] at h
      obtain ⟨p, t, hchosen, hnone⟩ := Session.run_eq_none_iff.mp (Option.map_eq_none_iff.mp h)
      obtain ⟨ps, hps, rfl⟩ := replay_eq_none_iff.mp hnone
      exact ⟨p :: ps, .cons hp hchosen hps, Nat.lt_succ_self _⟩
  · rintro ⟨ps, hps, hlen⟩
    cases hps with
    | nil => cases hlen
    | @cons stack p t ps hp hchosen hps =>
      rw [hp]
      refine Option.map_eq_none_iff.mpr (Session.run_eq_none_iff.mpr ⟨p, t, hchosen, ?_⟩)
      refine replay_eq_none_iff.mpr ⟨ps.take n, hps.take n, ?_⟩
      exact List.length_take_of_le (Nat.le_of_lt_succ hlen)

/-- An evaluation ends under a bound exactly when never more replays than that are under way. -/
theorem evaluate_eq_some_iff {source : Source} {inputs : List Float} :
    (∃ r, evaluate e n o source inputs = some r) ↔
      ∀ ps, UnderWay e o source inputs ps → ps.length ≤ n := by
  rw [← Option.ne_none_iff_exists', Ne, evaluate_eq_none_iff]
  simp only [not_exists, not_and, Nat.not_lt]

end TypeFour
