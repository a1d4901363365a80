import TypeFour.Proofs.Bound
import TypeFour.Proofs.Simulation
import TypeFour.Proofs.Stages

/-!
# `TypeFour.Proofs.Lockstep` — two sessions side by side

A simulation relates two stacks that no operator can tell apart. Here it is carried on to whole sessions: the
stacks are related, the recordings will become related procedures, and the next braces are numbered so that
the blocks they open will be related too. Two such sessions that go through the same words stay so, or fail
in the same way.

Related procedures need not have related instructions, if they are never replayed. What is not replayed is
said of the first session only (`Avoids`): it is a property of its chains of replays.

## Contents
- `Avoids`, `Session.Avoids` — what is not replayed, in a replay and in a session.
- `Simulation.replay_agree_avoiding` — replays keep the relation where they avoid the others.
- `Simulation.Paired`, `RecordingRelated`, `Session.Lockstep` — related sessions.
- `accept_lockstep`, `run_lockstep`, `finish_lockstep` — one token, all words, the end of the data.
-/

namespace TypeFour

variable {e : Elementary} {n m : Nat} {banned : Procedure → Prop}

/-! ## Procedures that are not replayed -/

/-- While `body` is carried out from `s`, no procedure is replayed that is banned. -/
def Avoids (e : Elementary) (banned : Procedure → Prop) (body : List Instruction) (s : Stack) : Prop :=
  ∀ ps, UnderWayIn e body s ps → ∀ p ∈ ps, ¬banned p

section

variable {i : Instruction} {is body : List Instruction} {s t u : Stack} {p : Procedure} {op : Operator}

/-- One instruction that succeeds, and then the others, under a bound that is enough for both. -/
theorem replay_cons_of_ok {r : EStateM.Result Fault Stack Unit}
    (hi : perform e (replay e n) i s = some (.ok () t)) (hr : replay e m is t = some r) :
    replay e (max n m + 1) (i :: is) s = some r := by
  have hfirst := perform_mono (replay_mono (Nat.le_max_left n m)) i s _ hi
  have hrest := replay_mono (Nat.le_succ_of_le (Nat.le_max_right n m)) is t _ hr
  exact (runAll_cons_of_ok hfirst).trans hrest

theorem Chosen.cons (hi : perform e (replay e n) i s = some (.ok () t)) (h : Chosen e is t p u) :
    Chosen e (i :: is) s p u := by
  obtain ⟨before, op, after, v, m, rfl, hbefore, hop⟩ := h
  exact ⟨i :: before, op, after, v, _, rfl, replay_cons_of_ok hi hbefore, hop⟩

theorem Operator.Chooses.chosen (h : op.Chooses e s p t) (is : List Instruction) :
    Chosen e (.operator op :: is) s p t :=
  ⟨[], op, is, s, 1, rfl, rfl, h⟩

namespace Avoids

theorem tail (h : Avoids e banned (i :: is) s) (hi : perform e (replay e n) i s = some (.ok () t)) :
    Avoids e banned is t := by
  intro ps hps
  cases hps with
  | nil => simp
  | cons hchosen hps => exact h _ (.cons (hchosen.cons hi) hps)

theorem of_chosen (h : Avoids e banned body s) (hchosen : Chosen e body s p t) :
    ¬banned p ∧ Avoids e banned p.body t := by
  constructor
  · exact h _ (.cons hchosen .nil) p List.mem_cons_self
  · intro ps hps q hq
    exact h _ (.cons hchosen hps) q (List.mem_cons_of_mem p hq)

end Avoids

end

namespace Simulation

variable (σ : Simulation)
  (hbody : ∀ p q, σ.procedures p q → ¬banned p →
    List.Forall₂ (InstructionRelated σ.procedures) p.body q.body)

include hbody

/-- **Replays keep the relation** if related procedures have related instructions, save for some that are not
replayed. -/
theorem replay_agree_avoiding (n : Nat) {is is' : List Instruction}
    (his : List.Forall₂ (InstructionRelated σ.procedures) is is') {s t : Stack} (hs : σ.relates s t)
    (havoids : Avoids e banned is s) :
    RunAgree σ.relates σ.excused (replay e n is s) (replay e n is' t) := by
  -- on the bound, for what an operator chooses, and under it on the instructions
  induction n generalizing is is' s t with
  | zero => exact .none
  | succ n ih =>
    show RunAgree _ _ (runAll (perform e (replay e n)) is s) (runAll (perform e (replay e n)) is' t)
    induction his generalizing s t with
    | nil => exact .some (.ok rfl hs)
    | @cons i i' is is' hi _ ihis =>
      apply RunAgree.runAll_cons
      · cases hi with
        | number x => exact .some (σ.push_number x s t hs)
        | boolean b => exact .some (σ.push_boolean b s t hs)
        | block hp => exact .some (σ.push (.procedure hp) s t hs)
        | operator op =>
          apply σ.execute_agree_of_choice e op hs
          intro choice p q u v hb hchoice hpq huv
          have hchosen : op.Chooses e s p u := ⟨choice, hb, hchoice⟩
          obtain ⟨hp, hinner⟩ := havoids.of_chosen (hchosen.chosen is)
          exact ih (hbody p q hpq hp) huv hinner
      · intro u v hu huv
        exact ihis huv (havoids.tail hu)

/-- Operators that are executed keep it as well. -/
theorem execute_agree_avoiding (n : Nat) {op : Operator} {s t : Stack} (hs : σ.relates s t)
    (havoids : ∀ p u, op.Chooses e s p u → ¬banned p ∧ Avoids e banned p.body u) :
    RunAgree σ.relates σ.excused (execute e (replay e n) op s) (execute e (replay e n) op t) := by
  apply σ.execute_agree_of_choice e op hs
  intro choice p q u v hb hchoice hpq huv
  obtain ⟨hp, hinner⟩ := havoids p u ⟨choice, hb, hchoice⟩
  exact σ.replay_agree_avoiding hbody n (hbody p q hpq hp) huv hinner

end Simulation

/-- While words are worked through from `s`, no procedure is replayed that is banned. -/
def Session.Avoids (e : Elementary) (o : Options) (banned : Procedure → Prop) (ws : List Word) (s : Session) :
    Prop :=
  ∀ p t, Session.Chosen e o ws s p t → ¬banned p ∧ TypeFour.Avoids e banned p.body t

section

variable {o : Options} {ws rest : List Word} {s u : Session}

/-- What is avoided from the beginning is avoided in what comes later. -/
theorem Session.Avoids.of_run (h : Session.Avoids e o banned (ws ++ rest) s)
    (hr : run e n o ws s = some (.ok u)) : Session.Avoids e o banned rest u := by
  rintro p t ⟨before, w, after, v, m, op, rfl, hbefore, hop⟩
  have hfront := run_mono (Nat.le_max_left n m) hr
  have hthen := run_mono (Nat.le_max_right n m) hbefore
  refine h p t ⟨ws ++ before, w, after, v, max n m, op, (List.append_assoc _ _ _).symm, ?_, hop⟩
  rw [run_append, hfront]
  exact hthen

/-- What an evaluation does not replay is avoided by its words. -/
theorem Session.avoids_of_underWay {source : Source} {inputs : List Float} {stack : Stack}
    (h : ∀ ps, UnderWay e o source inputs ps → ∀ p ∈ ps, ¬banned p)
    (hinputs : Action.outcome (Stack.pushNumbers inputs) { limit := o.maxStackDepth } = .ok stack) :
    Session.Avoids e o banned (Reader.ofSource o.bufferCapacity source).transcript.words { stack } := by
  intro p t hchosen
  constructor
  · exact h _ (.cons hinputs hchosen .nil) p List.mem_cons_self
  · intro ps hps q hq
    exact h _ (.cons hinputs hchosen hps) q (List.mem_cons_of_mem p hq)

end

/-! ## Sessions -/

/-- The second options decide as the first do. Where the fault is excused, their limit on nesting may be
higher. -/
structure Options.Alike (excused : Fault → Prop) (o o' : Options) : Prop where
  unknownTokens : o'.unknownTokens = o.unknownTokens
  truncatedInput : o'.truncatedInput = o.truncatedInput
  maxNestingDepth : o'.maxNestingDepth = o.maxNestingDepth ∨
    excused .limitCheck ∧ o.maxNestingDepth ≤ o'.maxNestingDepth

theorem Options.Alike.refl (excused : Fault → Prop) (o : Options) : o.Alike excused o :=
  ⟨rfl, rfl, .inl rfl⟩

theorem Related.toInstruction {P : Procedure → Procedure → Prop} {v w : Value} (h : Related P v w) :
    InstructionRelated P v.toInstruction w.toInstruction := by
  cases h with
  | number x => exact .number x
  | boolean b => exact .boolean b
  | procedure hp => exact .block hp

namespace Simulation

variable (σ : Simulation)

/-- Blocks with these numbers are related when their instructions are. -/
def Paired (k k' : Nat) : Prop :=
  ∀ is is', List.Forall₂ (InstructionRelated σ.procedures) is is' → σ.procedures ⟨k, is⟩ ⟨k', is'⟩

/-- Recordings that become related procedures. -/
structure RecordingRelated (r r' : Recording) : Prop where
  origin : σ.Paired r.origin r'.origin
  latest : List.Forall₂ (InstructionRelated σ.procedures) r.latest r'.latest

variable {σ} {r r' : Recording}

theorem RecordingRelated.add {i i' : Instruction} (h : σ.RecordingRelated r r')
    (hi : InstructionRelated σ.procedures i i') : σ.RecordingRelated (r.add i) (r'.add i') :=
  ⟨h.origin, .cons hi h.latest⟩

theorem RecordingRelated.toProcedure (h : σ.RecordingRelated r r') :
    σ.procedures r.toProcedure r'.toProcedure :=
  h.origin _ _ (List.rel_reverse h.latest)

end Simulation

/-- An action on stacks that stay related, without the stack that a failure leaves. -/
theorem Outcome.Follows.of_agree {α β : Type} {relates : Stack → Stack → Prop} {excused : Fault → Prop}
    {A : α → β → Prop} {m : Action α} {m' : Action β} {s t : Stack}
    (h : Agree relates excused A (m s) (m' t)) :
    Outcome.Follows excused relates (some (m.outcome s)) (some (m'.outcome t)) := by
  unfold Action.outcome
  generalize m s = r at h ⊢
  generalize m' t = r' at h ⊢
  cases h with
  | ok _ hst => exact .ok hst
  | error _ => exact .error _
  | excused hf => exact .excused hf

namespace Session

/-- Two sessions at the same place of their programs: what they hold is related, and so will be the blocks
that are opened next. -/
structure Lockstep (σ : Simulation) (s s' : Session) : Prop where
  stack : σ.relates s.stack s'.stack
  recordings : List.Forall₂ σ.RecordingRelated s.recordings s'.recordings
  depth : s.depth = s'.depth
  opened : ∀ j, σ.Paired (s.opened + j) (s'.opened + j)

variable {σ : Simulation} {o o' : Options} {s s' : Session}

theorem deliver_lockstep {v v' : Value} (hv : Related σ.procedures v v') (h : s.Lockstep σ s') :
    Outcome.Follows σ.excused (Lockstep σ) (some (s.deliver v)) (some (s'.deliver v')) := by
  obtain ⟨stack, recordings, depth, opened⟩ := s
  obtain ⟨stack', recordings', depth', opened'⟩ := s'
  obtain ⟨hstack, hrecordings, hdepth, hopened⟩ := h
  cases hrecordings with
  | nil =>
    refine (Outcome.Follows.of_agree (σ.push hv _ _ hstack)).map ?_
    intro t t' ht
    exact ⟨ht, .nil, hdepth, hopened⟩
  | cons hr hrs => exact .ok ⟨hstack, .cons (hr.add hv.toInstruction) hrs, hdepth, hopened⟩

/-- An opening brace may be one too many under the lower limit only. -/
theorem openBlock_lockstep (ho : o.Alike σ.excused o') (h : s.Lockstep σ s') :
    Outcome.Follows σ.excused (Lockstep σ) (some (s.openBlock o)) (some (s'.openBlock o')) := by
  obtain ⟨hstack, hrecordings, hdepth, hopened⟩ := h
  have hnext (j : Nat) : σ.Paired (s.opened + 1 + j) (s'.opened + 1 + j) := by
    rw [Nat.add_assoc, Nat.add_assoc]
    exact hopened (1 + j)
  unfold openBlock
  by_cases hlim : o.maxNestingDepth ≤ s.depth
  · rw [if_pos hlim]
    rcases ho.maxNestingDepth with hsame | ⟨hexcused, -⟩
    · rw [hsame, ← hdepth, if_pos hlim]
      exact .error _
    · exact .excused hexcused
  · have hlim' : ¬o'.maxNestingDepth ≤ s'.depth := by
      have := ho.maxNestingDepth
      omega
    rw [if_neg hlim, if_neg hlim', ← hdepth]
    refine .ok ⟨hstack, ?_, rfl, hnext⟩
    by_cases hzero : s.depth = 0
    · simpa only [if_pos hzero] using hrecordings
    · simp only [if_neg hzero]
      exact .cons ⟨hopened 0, .nil⟩ hrecordings

theorem closeBlock_lockstep (ho : o.Alike σ.excused o') (h : s.Lockstep σ s') :
    Outcome.Follows σ.excused (Lockstep σ) (some (s.closeBlock o)) (some (s'.closeBlock o')) := by
  obtain ⟨stack, recordings, depth, opened⟩ := s
  obtain ⟨stack', recordings', depth', opened'⟩ := s'
  obtain ⟨hstack, hrecordings, rfl, hopened⟩ := h
  unfold closeBlock
  rw [ho.unknownTokens]
  match depth with
  | 0 =>
    cases o.unknownTokens with
    | strict => exact .error _
    | lenient => exact .ok ⟨hstack, hrecordings, rfl, hopened⟩
  | 1 => exact .ok ⟨hstack, hrecordings, rfl, hopened⟩
  | d + 2 =>
    cases hrecordings with
    | nil => exact .ok ⟨hstack, .nil, rfl, hopened⟩
    | @cons r r' rs rs' hr hrs =>
      have hinner : Lockstep σ ⟨stack, rs, d + 2, opened⟩ ⟨stack', rs', d + 2, opened'⟩ :=
        ⟨hstack, hrs, rfl, hopened⟩
      refine (deliver_lockstep (.procedure hr.toProcedure) hinner).map ?_
      intro t t' ht
      exact ⟨ht.stack, ht.recordings, rfl, ht.opened⟩

section

variable (hbody : ∀ p q, σ.procedures p q → ¬banned p →
    List.Forall₂ (InstructionRelated σ.procedures) p.body q.body)

include hbody

theorem operate_lockstep {op : Operator} (h : s.Lockstep σ s')
    (havoids : s.recordings = [] → ∀ p t, op.Chooses e s.stack p t →
      ¬banned p ∧ TypeFour.Avoids e banned p.body t) :
    Outcome.Follows σ.excused (Lockstep σ) (s.operate e n op) (s'.operate e n op) := by
  obtain ⟨stack, recordings, depth, opened⟩ := s
  obtain ⟨stack', recordings', depth', opened'⟩ := s'
  obtain ⟨hstack, hrecordings, hdepth, hopened⟩ := h
  cases hrecordings with
  | cons hr hrs => exact .ok ⟨hstack, .cons (hr.add (.operator op)) hrs, hdepth, hopened⟩
  | nil =>
    have hagree := σ.execute_agree_avoiding hbody n hstack (havoids rfl)
    unfold operate
    simp only
    generalize execute e (replay e n) op stack = r at hagree ⊢
    generalize execute e (replay e n) op stack' = r' at hagree ⊢
    cases hagree with
    | none => exact .none
    | excused hf => exact .excused hf
    | some hr =>
      cases hr with
      | ok _ hst => exact .ok ⟨hst, .nil, hdepth, hopened⟩
      | error _ => exact .error _
      | excused hf => exact .excused hf

/-- **One token.** -/
theorem accept_lockstep (ho : o.Alike σ.excused o') {t : Token} (h : s.Lockstep σ s')
    (havoids : ∀ op, t = .operator op → s.recordings = [] → ∀ p u, op.Chooses e s.stack p u →
      ¬banned p ∧ TypeFour.Avoids e banned p.body u) :
    Outcome.Follows σ.excused (Lockstep σ) (s.accept e n o t) (s'.accept e n o' t) := by
  cases t with
  | number x => exact deliver_lockstep (.number x) h
  | boolean b => exact deliver_lockstep (.boolean b) h
  | operator op =>
    have hoperate := operate_lockstep (n := n) hbody h (havoids op rfl)
    cases op with
    | openBrace => exact openBlock_lockstep ho h
    | closeBrace => exact closeBlock_lockstep ho h
    | _ => exact hoperate

/-- **All words.** -/
theorem run_lockstep (ho : o.Alike σ.excused o') (ws : List Word) (h : s.Lockstep σ s')
    (havoids : Session.Avoids e o banned ws s) :
    Outcome.Follows σ.excused (Lockstep σ) (run e n o ws s) (run e n o' ws s') := by
  induction ws generalizing s s' with
  | nil => exact .ok h
  | cons w ws ih =>
    cases ht : Token.ofWord o.unknownTokens w with
    | error f =>
      rw [run, run, ho.unknownTokens, ht]
      exact .error f
    | ok t =>
      rw [run_cons ht, run_cons (ho.unknownTokens ▸ ht)]
      apply Outcome.Follows.andThen_of_ok (A := Lockstep σ)
      · apply accept_lockstep hbody ho h
        rintro op rfl hrec p u hop
        exact havoids p u ⟨[], w, ws, s, 0, op, rfl, rfl, ht, hrec, hop⟩
      · intro u u' hu huu'
        have hrun : run e n o [w] s = some (.ok u) := run_cons_of_ok ht hu
        have hrest : Session.Avoids e o banned ws u := Session.Avoids.of_run havoids hrun
        exact ih huu' hrest

end

/-! ## The end of the data -/

theorem closeAround_lockstep {p p' : Procedure} {rs rs' : List Recording} (hp : σ.procedures p p')
    (h : List.Forall₂ σ.RecordingRelated rs rs') : σ.Keeps Eq (closeAround p rs) (closeAround p' rs') := by
  induction h generalizing p p' with
  | nil => exact σ.push (.procedure hp)
  | cons hr _ ih => exact ih (hr.add (.block hp)).toProcedure

theorem closeAll_lockstep {rs rs' : List Recording} (h : List.Forall₂ σ.RecordingRelated rs rs') :
    σ.Keeps Eq (closeAll rs) (closeAll rs') := by
  cases h with
  | nil => exact .pure rfl
  | cons hr hrs => exact closeAround_lockstep hr.toProcedure hrs

theorem finish_lockstep (ho : o.Alike σ.excused o') (h : s.Lockstep σ s') :
    Outcome.Follows σ.excused σ.relates (some (s.finish o)) (some (s'.finish o')) := by
  unfold finish
  rw [ho.truncatedInput, ← h.depth]
  by_cases hdepth : s.depth = 0
  · rw [if_pos hdepth, if_pos hdepth]
    exact .ok h.stack
  · rw [if_neg hdepth, if_neg hdepth]
    cases o.truncatedInput with
    | fail => exact .error _
    | tolerate => exact .of_agree (closeAll_lockstep h.recordings _ _ h.stack)

end Session

/-- **What comes after the words.** -/
theorem Transcript.conclude_lockstep {σ : Simulation} {o o' : Options} {s s' : Session}
    (ho : o.Alike σ.excused o') (tr : Transcript) (h : s.Lockstep σ s') :
    Outcome.Follows σ.excused σ.relates (some (tr.conclude o s)) (some (tr.conclude o' s')) := by
  unfold conclude
  cases tr.fault with
  | some f => exact .error f
  | none => exact Session.finish_lockstep ho h

end TypeFour
