import TypeFour.Proofs.Bound
import TypeFour.Proofs.Simulation

/-!
# `TypeFour.Proofs.Moments` — the stacks that an evaluation comes to

An evaluation comes to many stacks before it ends, and it need not end at all. The stacks meant here are
those between two inputs that are pushed, between two words, after an operator that is executed, also one
that fails, and between any two instructions of any replay, however deep it is inside others. The replays
under way are found as chains of procedures, each chosen by an operator; so nothing is asked of the replays
around a moment, which may never end.

What holds of the procedures on a stack and of the blocks inside them stays true through every operator and
every replay. Here this is carried over from the ends of runs to all moments of them.

## Contents
- `Run.Leaves` — the stack that a run leaves, by a success or by a fault.
- `MetIn`, `Session.Met`, `Met` — the stacks met in a replay, between words and in an evaluation.
- `Stack.All.of_leaves`, `Chosen.all`, `MetIn.all`, `Session.Met.all` — what all of their procedures have.
-/

namespace TypeFour

variable {e : Elementary} {n : Nat} {o : Options}

/-! ## The stacks -/

/-- The run ends, and this is the stack that it leaves, whether it succeeds or fails. -/
inductive Run.Leaves : Run → Stack → Prop where
  | ok {t : Stack} : Leaves (some (.ok () t)) t
  | error {f : Fault} {t : Stack} : Leaves (some (.error f t)) t

/-- The stack is met while `body` is carried out from `s`: it is left by the first instructions, some or
none of them, or met in the replay of a procedure that an operator of `body` chooses. -/
inductive MetIn (e : Elementary) : List Instruction → Stack → Stack → Prop where
  | between {body before after : List Instruction} {s u : Stack} {n : Nat} :
      body = before ++ after → (replay e n before s).Leaves u → MetIn e body s u
  | within {body : List Instruction} {s t u : Stack} {p : Procedure} :
      Chosen e body s p t → MetIn e p.body t u → MetIn e body s u

/-- The stack is met while words are worked through from `s`: between two words, after an operator that is
executed, or in the replay of a procedure that such an operator chooses. -/
inductive Session.Met (e : Elementary) (o : Options) (ws : List Word) (s : Session) : Stack → Prop where
  | between {before : List Word} {u : Session} {n : Nat} :
      before <+: ws → run e n o before s = some (.ok u) → Met e o ws s u.stack
  | executed {before after : List Word} {w : Word} {u : Session} {op : Operator} {t : Stack} {n : Nat} :
      ws = before ++ w :: after → run e n o before s = some (.ok u) →
      Token.ofWord o.unknownTokens w = .ok (.operator op) → u.recordings = [] →
      (execute e (replay e n) op u.stack).Leaves t → Met e o ws s t
  | within {p : Procedure} {t u : Stack} :
      Session.Chosen e o ws s p t → MetIn e p.body t u → Met e o ws s u

/-- The stack is met in an evaluation: while the inputs are pushed, while the words are worked through, or at
the end. -/
inductive Met (e : Elementary) (o : Options) (source : Source) (inputs : List Float) : Stack → Prop where
  | pushed {front : List Float} {t : Stack} : front <+: inputs →
      Run.Leaves (some (Stack.pushNumbers front { limit := o.maxStackDepth })) t →
      Met e o source inputs t
  | read {stack t : Stack} :
      Action.outcome (Stack.pushNumbers inputs) { limit := o.maxStackDepth } = .ok stack →
      Session.Met e o (Reader.ofSource o.bufferCapacity source).transcript.words { stack } t →
      Met e o source inputs t
  | final {t : Stack} {n : Nat} : evaluate e n o source inputs = some (.ok t) → Met e o source inputs t

theorem Session.Met.of_isPrefix {ws ws' : List Word} {s : Session} {t : Stack} (h : Session.Met e o ws s t)
    (hws : ws <+: ws') : Session.Met e o ws' s t := by
  obtain ⟨rest, rfl⟩ := hws
  cases h with
  | between hbefore hu => exact .between (hbefore.trans (List.prefix_append ws rest)) hu
  | @executed before after w u op t n hsplit hu hw hrec ht =>
    have hsplit' : ws ++ rest = before ++ w :: (after ++ rest) := by
      rw [hsplit]
      simp
    exact .executed hsplit' hu hw hrec ht
  | within hchosen ht =>
    obtain ⟨before, w, after, u, n, op, rfl, hchoice⟩ := hchosen
    exact .within ⟨before, w, after ++ rest, u, n, op, by simp, hchoice⟩ ht

/-! ## What all procedures have -/

variable {ok : Procedure → Prop} {limit : Option Nat} {s t u : Stack} {p : Procedure}

/-- A run that cannot tell such a stack from itself leaves one, also when it fails. -/
theorem Stack.All.of_leaves {r : Run} (hagree : RunAgree (Simulation.all ok limit).relates
    (Simulation.all ok limit).excused r r) (h : r.Leaves t) : t.All ok limit := by
  cases h with
  | ok => exact .of_runAgree hagree rfl
  | error =>
    cases hagree with
    | some hresult =>
      cases hresult with
      | error ht => exact pointwise_self.mp ht
      | excused hf => exact hf.elim
    | excused hf => exact hf.elim

/-- While the inputs are pushed there is no procedure on the stack. -/
theorem Stack.All.of_inputs_leave {inputs : List Float}
    (h : Run.Leaves (some (Stack.pushNumbers inputs { limit })) t) : t.All ok limit := by
  have hempty : Stack.All ok limit { limit } := ⟨by simp, rfl⟩
  have hkept := (Simulation.all ok limit).pushNumbers inputs _ _ (pointwise_self.mpr hempty)
  exact .of_leaves (.some hkept) h

section

variable (hbody : ∀ p, ok p → ∀ i ∈ p.body, i.Meets ok)

include hbody

/-- What an operator chooses has the property, and so have the procedures it leaves. -/
theorem Chosen.all {body : List Instruction} (h : Chosen e body s p t) (hi : ∀ i ∈ body, i.Meets ok)
    (hs : s.All ok limit) : ok p ∧ t.All ok limit := by
  obtain ⟨before, op, after, u, n, rfl, hbefore, choice, hb, hchoice⟩ := h
  have hu := hs.replay hbody (fun i hmem => hi i (List.mem_append_left _ hmem)) hbefore
  obtain ⟨hp, ht⟩ := hu.choice hb hchoice
  exact ⟨hp p rfl, ht⟩

theorem UnderWayIn.all {body : List Instruction} {ps : List Procedure} (h : UnderWayIn e body s ps)
    (hi : ∀ i ∈ body, i.Meets ok) (hs : s.All ok limit) : ∀ p ∈ ps, ok p := by
  induction h with
  | nil => simp
  | cons hchosen _ ih =>
    obtain ⟨hp, ht⟩ := hchosen.all hbody hi hs
    exact List.forall_mem_cons.mpr ⟨hp, ih (hbody _ hp) ht⟩

/-- **At every moment of a replay.** -/
theorem MetIn.all {body : List Instruction} (h : MetIn e body s u) (hi : ∀ i ∈ body, i.Meets ok)
    (hs : s.All ok limit) : u.All ok limit := by
  induction h with
  | between hsplit hu =>
    subst hsplit
    exact .of_leaves (hs.replay_self hbody fun i hmem => hi i (List.mem_append_left _ hmem)) hu
  | within hchosen _ ih =>
    obtain ⟨hp, ht⟩ := hchosen.all hbody hi hs
    exact ih (hbody _ hp) ht

/-- **At every moment of a session**, if it is so between the words. -/
theorem Session.Met.all {ws : List Word} {s : Session} (h : Session.Met e o ws s t)
    (hs : ∀ before u n, before <+: ws → run e n o before s = some (.ok u) → u.stack.All ok limit) :
    t.All ok limit := by
  cases h with
  | between hbefore hu => exact hs _ _ _ hbefore hu
  | executed hsplit hu _ _ ht =>
    have hall := hs _ _ _ ⟨_, hsplit.symm⟩ hu
    exact .of_leaves (hall.execute_self hbody _) ht
  | within hchosen ht =>
    obtain ⟨before, w, after, u, n, op, hsplit, hu, -, -, choice, hb, hchoice⟩ := hchosen
    obtain ⟨hp, hall⟩ := (hs _ _ _ ⟨_, hsplit.symm⟩ hu).choice hb hchoice
    exact ht.all hbody (hbody _ (hp _ rfl)) hall

end

end TypeFour
