import TypeFour.Proofs.Depth
import TypeFour.Proofs.Mapping

/-!
# `TypeFour.Proofs.NoOps` — instructions that do nothing

A word that means nothing is passed over where it is executed, but inside a block it is recorded, as `noOp`.
It can be left out of the block: replaying what is left comes to the same, and a session that never recorded
it comes to the same too, in both cases up to the `noOp` in the procedures that are still on the stack.

Shape. `prune` leaves `noOp` out of instructions, and so of procedures, stacks, recordings and sessions.
Each step of a session commutes with it, unless the step is `noOp`, which pruning makes no step at all.

## Contents
- `Instruction.prune`, `pruneAll`, `Procedure.prune`, `Stack.prune`, `Session.prune`.
- `replay_prune`, `perform_prune` — replaying pruned instructions on a pruned stack.
- `Session.accept_prune`, `Session.accept_noOp` — one token; `Session.finish_prune` — the end of the data.
-/

namespace TypeFour

/-! ## Leaving `noOp` out -/

/-- The instruction does nothing. -/
def Instruction.isNoOp : Instruction → Bool
  | .operator .noOp => true
  | _ => false

mutual

/-- The instruction without any `noOp` in the blocks inside it. -/
def Instruction.prune : Instruction → Instruction
  | .number x => .number x
  | .boolean b => .boolean b
  | .block origin body => .block origin (pruneAll body)
  | .operator op => .operator op

/-- The instructions without any `noOp` among them or in the blocks inside them. -/
def pruneAll : List Instruction → List Instruction
  | [] => []
  | i :: is => if i.isNoOp then pruneAll is else i.prune :: pruneAll is

end

/-- The procedure without any `noOp` in it. -/
def Procedure.prune (p : Procedure) : Procedure where
  origin := p.origin
  body := pruneAll p.body

/-- The value without any `noOp` in it. -/
def Value.prune (v : Value) : Value :=
  v.mapProcedures Procedure.prune

/-- The stack without any `noOp` in the procedures on it. -/
def Stack.prune (s : Stack) : Stack :=
  s.mapProcedures Procedure.prune

/-- The recording without any `noOp` in it. -/
def Recording.prune (r : Recording) : Recording where
  origin := r.origin
  latest := pruneAll r.latest

/-- The session without any `noOp` in its procedures and recordings. -/
def Session.prune (s : Session) : Session :=
  { s with stack := s.stack.prune, recordings := s.recordings.map Recording.prune }

theorem pruneAll_cons_of_isNoOp {i : Instruction} (h : i.isNoOp = true) (is : List Instruction) :
    pruneAll (i :: is) = pruneAll is := by
  rw [pruneAll, if_pos h]

theorem pruneAll_cons {i : Instruction} (h : i.isNoOp = false) (is : List Instruction) :
    pruneAll (i :: is) = i.prune :: pruneAll is := by
  rw [pruneAll, if_neg (Bool.eq_false_iff.mp h)]

theorem pruneAll_eq (is : List Instruction) :
    pruneAll is = (is.filter fun i => !i.isNoOp).map Instruction.prune := by
  induction is with
  | nil => rfl
  | cons i is ih =>
    cases h : i.isNoOp with
    | true => rw [pruneAll_cons_of_isNoOp h, List.filter_cons_of_neg (by simp [h]), ih]
    | false => rw [pruneAll_cons h, List.filter_cons_of_pos (by simp [h]), List.map_cons, ih]

theorem pruneAll_reverse (is : List Instruction) : pruneAll is.reverse = (pruneAll is).reverse := by
  rw [pruneAll_eq, pruneAll_eq, List.filter_reverse, List.map_reverse]

theorem Instruction.isNoOp_prune (i : Instruction) : i.prune.isNoOp = i.isNoOp := by
  cases i <;> rfl

mutual

theorem Instruction.prune_prune : ∀ i : Instruction, i.prune.prune = i.prune
  | .number _ => rfl
  | .boolean _ => rfl
  | .operator _ => rfl
  | .block origin body => congrArg (Instruction.block origin) (pruneAll_pruneAll body)

theorem pruneAll_pruneAll : ∀ is : List Instruction, pruneAll (pruneAll is) = pruneAll is
  | [] => rfl
  | i :: is => by
    cases h : i.isNoOp with
    | true => rw [pruneAll_cons_of_isNoOp h, pruneAll_pruneAll is]
    | false =>
      rw [pruneAll_cons h, pruneAll_cons (i.isNoOp_prune.trans h), i.prune_prune, pruneAll_pruneAll is]

end

/-- What is left has nothing more to leave out. -/
theorem Stack.prune_prune (s : Stack) : s.prune.prune = s.prune := by
  have hvalue (v : Value) : v.prune.prune = v.prune := by
    cases v with
    | number x => rfl
    | boolean b => rfl
    | procedure p =>
      exact congrArg (fun body => Value.procedure ⟨p.origin, body⟩) (pruneAll_pruneAll p.body)
  simp only [prune, mapProcedures, List.map_map]
  congr 1
  exact List.map_congr_left fun v _ => hvalue v

/-! ## Replays -/

/-- Leaving `noOp` out, as a relation that the primitive actions keep. -/
abbrev Simulation.pruning (limit : Option Nat) : Simulation :=
  .mapping Procedure.prune (fun _ _ => Iff.rfl) limit

theorem Stack.pruning_iff {limit : Option Nat} {s t : Stack} :
    (Simulation.pruning limit).relates s t ↔ s.limit = limit ∧ t = s.prune :=
  Stack.pointwise_map

theorem Stack.pruning_self (s : Stack) : (Simulation.pruning s.limit).relates s s.prune :=
  pruning_iff.mpr ⟨rfl, rfl⟩

/-- What a pruned procedure holds. -/
theorem Simulation.pruning_body {limit : Option Nat} (p q : Procedure)
    (h : (Simulation.pruning limit).procedures p q) : q.body = pruneAll p.body :=
  congrArg Procedure.body h

theorem Instruction.related_prune (i : Instruction) :
    InstructionRelated (fun p q => q = p.prune) i i.prune := by
  cases i with
  | number x => exact .number x
  | boolean b => exact .boolean b
  | operator op => exact .operator op
  | block origin body => exact .block rfl

variable {e : Elementary} {n : Nat} {o : Options}

theorem perform_of_isNoOp {i : Instruction} (h : i.isNoOp = true)
    (again : List Instruction → Stack → Run) (s : Stack) : perform e again i s = some (.ok () s) := by
  unfold Instruction.isNoOp at h
  split at h
  · rfl
  · cases h

/-- Replays of pruned instructions agree with those of the instructions themselves. -/
theorem replay_agree_prune (e : Elementary) (n : Nat) (limit : Option Nat) :
    (Simulation.pruning limit).RunsAgree (fun is is' => is' = pruneAll is) (replay e n) (replay e n) := by
  -- on the bound, and for each bound on the instructions: a `noOp` is a step on the left side only
  induction n with
  | zero =>
    intro is is' _ s t _
    exact .none
  | succ n ihn =>
    rintro is _ rfl
    induction is with
    | nil =>
      intro s t hs
      exact .some (.ok rfl hs)
    | cons i is ih =>
      intro s t hs
      cases hi : i.isNoOp with
      | true =>
        have hskip : replay e (n + 1) (i :: is) s = replay e (n + 1) is s :=
          runAll_cons_of_ok (perform_of_isNoOp hi (replay e n) s)
        rw [hskip, pruneAll_cons_of_isNoOp hi]
        exact ih s t hs
      | false =>
        have hstep := (Simulation.pruning limit).perform_agree Simulation.pruning_body e ihn i.related_prune hs
        rw [pruneAll_cons hi]
        exact .runAll_cons hstep fun u v _ => ih u v

/-- Runs that agree up to pruning. -/
theorem RunAgree.eq_prune {limit : Option Nat} {r r' : Run}
    (h : RunAgree (Simulation.pruning limit).relates (fun _ => False) r r') : r' = r.onStack Stack.prune :=
  h.eq_onStack (fun _ _ hst => (Stack.pruning_iff.mp hst).2) fun _ _ hf => hf.elim

/-- **Replaying does not see `noOp`.** -/
theorem replay_prune (e : Elementary) (n : Nat) (is : List Instruction) (s : Stack) :
    replay e n (pruneAll is) s.prune = (replay e n is s).onStack Stack.prune :=
  (replay_agree_prune e n s.limit is _ rfl s _ s.pruning_self).eq_prune

/-- A block of one instruction. -/
theorem replay_singleton (i : Instruction) (s : Stack) :
    replay e (n + 1) [i] s = perform e (replay e n) i s := by
  rw [replay, runAll]
  cases perform e (replay e n) i s with
  | none => rfl
  | some r => cases r <;> rfl

/-- One instruction that does something, on the pruned stack. -/
theorem perform_prune {i : Instruction} (hi : i.isNoOp = false) (s : Stack) :
    perform e (replay e n) i.prune s.prune = (perform e (replay e n) i s).onStack Stack.prune := by
  have hreplay := replay_prune e (n + 1) [i] s
  rwa [pruneAll_cons hi, pruneAll, replay_singleton, replay_singleton] at hreplay

/-- Pushing a pruned value on the pruned stack. -/
theorem push_prune (v : Value) (s : Stack) :
    Action.outcome (Stack.push v.prune) s.prune = (Action.outcome (Stack.push v) s).map Stack.prune := by
  unfold Action.outcome Stack.push
  rw [← s.pruning_self.hasRoom 1]
  by_cases hr : s.hasRoom 1 = true
  · rw [if_pos hr, if_pos hr]
    rfl
  · rw [if_neg hr, if_neg hr]
    rfl

/-! ## Sessions -/

/-- The outcome with its result changed. -/
def Outcome.mapOk {α β : Type} (g : α → β) (r : Outcome α) : Outcome β :=
  Option.map (Except.map g) r

theorem Outcome.prune_prune (r : Outcome Stack) :
    (r.mapOk Stack.prune).mapOk Stack.prune = r.mapOk Stack.prune := by
  cases r with
  | none => rfl
  | some result =>
    cases result with
    | error f => rfl
    | ok s => exact congrArg (some ∘ Except.ok) s.prune_prune

theorem Value.isNoOp_toInstruction (v : Value) : v.toInstruction.isNoOp = false := by
  cases v <;> rfl

theorem Value.toInstruction_prune (v : Value) : v.prune.toInstruction = v.toInstruction.prune := by
  cases v <;> rfl

namespace Recording

theorem add_prune {i : Instruction} (h : i.isNoOp = false) (r : Recording) :
    (r.add i).prune = r.prune.add i.prune := by
  simp only [prune, add, pruneAll_cons h]

theorem add_prune_of_isNoOp {i : Instruction} (h : i.isNoOp = true) (r : Recording) :
    (r.add i).prune = r.prune := by
  simp only [prune, add, pruneAll_cons_of_isNoOp h]

theorem add_value_prune (v : Value) (r : Recording) :
    (r.add v.toInstruction).prune = r.prune.add v.prune.toInstruction := by
  rw [add_prune v.isNoOp_toInstruction, v.toInstruction_prune]

theorem toProcedure_prune (r : Recording) : r.prune.toProcedure = r.toProcedure.prune := by
  simp only [prune, toProcedure, Procedure.prune, pruneAll_reverse]

end Recording

namespace Session

theorem deliver_prune (v : Value) (s : Session) : s.prune.deliver v.prune = (s.deliver v).map prune := by
  obtain ⟨stack, recordings, depth, opened⟩ := s
  cases recordings with
  | cons r rs =>
    simp only [deliver, prune, List.map_cons, ← Recording.add_value_prune]
    rfl
  | nil =>
    simp only [deliver, prune, List.map_nil, push_prune]
    cases Action.outcome (Stack.push v) stack <;> rfl

theorem operate_prune {op : Operator} (hop : op ≠ .noOp) (s : Session) :
    s.prune.operate e n op = (s.operate e n op).mapOk prune := by
  have hinstruction : (Instruction.operator op).isNoOp = false := by
    cases op with
    | noOp => exact absurd rfl hop
    | _ => rfl
  obtain ⟨stack, recordings, depth, opened⟩ := s
  cases recordings with
  | cons r rs =>
    have hadd := r.add_prune hinstruction
    simp only [operate, prune, List.map_cons]
    rw [← show (Instruction.operator op).prune = .operator op from rfl, ← hadd]
    rfl
  | nil =>
    have hexecute : execute e (replay e n) op stack.prune =
        (execute e (replay e n) op stack).onStack Stack.prune := perform_prune hinstruction stack
    simp only [operate, prune, List.map_nil, hexecute]
    cases execute e (replay e n) op stack with
    | none => rfl
    | some r => cases r <;> rfl

theorem openBlock_prune (s : Session) : s.prune.openBlock o = (s.openBlock o).map prune := by
  have hdepth : s.prune.depth = s.depth := rfl
  unfold openBlock
  rw [hdepth]
  by_cases hlim : o.maxNestingDepth ≤ s.depth
  · rw [if_pos hlim, if_pos hlim]
    rfl
  · rw [if_neg hlim, if_neg hlim]
    by_cases hzero : s.depth = 0
    · simp only [if_pos hzero]
      rfl
    · simp only [if_neg hzero]
      rfl

theorem closeBlock_prune (policy : UnknownTokens) {s : Session} (hdepth : s.depth ≠ 0) :
    s.prune.closeBlock { o with unknownTokens := policy } = (s.closeBlock o).map prune := by
  obtain ⟨stack, recordings, depth, opened⟩ := s
  unfold closeBlock
  match depth, recordings with
  | 0, _ => exact absurd rfl hdepth
  | 1, _ => rfl
  | d + 2, [] => rfl
  | d + 2, r :: rs =>
    have hdeliver := deliver_prune (.procedure r.toProcedure) ⟨stack, rs, d + 2, opened⟩
    have hvalue : (Value.procedure r.toProcedure).prune = .procedure r.prune.toProcedure :=
      congrArg Value.procedure r.toProcedure_prune.symm
    rw [hvalue] at hdeliver
    simp only [prune, List.map_cons] at hdeliver ⊢
    rw [hdeliver]
    cases deliver (.procedure r.toProcedure) ⟨stack, rs, d + 2, opened⟩ <;> rfl

/-- **One token** other than `noOp` and a closing brace without an open one: the pruned session takes it as
the session does, under either policy. -/
theorem accept_prune (policy : UnknownTokens) {t : Token} {s : Session} (hno : t ≠ .operator .noOp)
    (hclose : t = .operator .closeBrace → s.depth ≠ 0) :
    s.prune.accept e n { o with unknownTokens := policy } t = (s.accept e n o t).mapOk prune := by
  cases t with
  | number x => exact congrArg some (deliver_prune (.number x) s)
  | boolean b => exact congrArg some (deliver_prune (.boolean b) s)
  | operator op =>
    cases op with
    | openBrace => exact congrArg some (openBlock_prune s)
    | closeBrace => exact congrArg some (closeBlock_prune policy (hclose rfl))
    | noOp => exact absurd rfl hno
    | _ => exact operate_prune (by simp) s

/-- **`noOp`** leaves nothing behind that pruning keeps. -/
theorem accept_noOp (s : Session) : ∃ u, s.accept e n o (.operator .noOp) = some (.ok u) ∧
    u.prune = s.prune ∧ u.depth = s.depth := by
  obtain ⟨stack, recordings, depth, opened⟩ := s
  cases recordings with
  | nil => exact ⟨_, rfl, rfl, rfl⟩
  | cons r rs =>
    refine ⟨_, rfl, ?_, rfl⟩
    simp only [prune, List.map_cons, Recording.add_prune_of_isNoOp (i := .operator .noOp) rfl]

/-! ### The end of the data -/

theorem closeAround_prune (p : Procedure) (rs : List Recording) (s : Stack) :
    Action.outcome (closeAround p.prune (rs.map Recording.prune)) s.prune =
      (Action.outcome (closeAround p rs) s).map Stack.prune := by
  induction rs generalizing p with
  | nil => exact push_prune (.procedure p) s
  | cons r rs ih =>
    have hadd := r.add_value_prune (.procedure p)
    have hprocedure := (r.add (Value.procedure p).toInstruction).toProcedure_prune
    rw [hadd] at hprocedure
    rw [List.map_cons, closeAround, closeAround, ← ih, ← hprocedure]
    rfl

theorem finish_prune (s : Session) : s.prune.finish o = (s.finish o).map Stack.prune := by
  obtain ⟨stack, recordings, depth, opened⟩ := s
  unfold finish
  match depth, o.truncatedInput, recordings with
  | 0, _, _ => rfl
  | _ + 1, .fail, _ => rfl
  | _ + 1, .tolerate, [] => rfl
  | _ + 1, .tolerate, r :: rs =>
    have hclose := closeAround_prune r.toProcedure rs stack
    rw [← r.toProcedure_prune] at hclose
    exact hclose

end Session

end TypeFour
