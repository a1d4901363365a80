import Mathlib.Data.List.Forall2
import TypeFour.Replay

/-!
# `TypeFour.Proofs.Simulation` — what no operator can tell apart

An operator looks at numbers and booleans, at how many values there are, and, of two procedures, at whether
they come from the same brace. It never looks inside a procedure. So if two stacks are related in a way that
keeps these things, every operator takes them to related stacks again, with the same fault or with results
of the same kind.

The relation is a parameter (`Simulation`): it may rename the origins of procedures, hold of equal stacks
that have some property, or allow for values underneath or for another limit. What has to be shown of it
is only that the six primitive actions keep it; every operator is put together from these.

## Contents
- `Agree`, `Simulates` — results that agree, actions that take related stacks to such results; sequencing.
- `Related`, `Simulation` — related values, and the relations that the primitive actions keep.
- `Simulation.behaviour` — every operator keeps them.
- `InstructionRelated`, `RunAgree`, `Simulation.replay_agree` — so does replaying related instructions.
- `Simulation.pointwise` — stacks related value by value.
- `Stack.All` — the case of one stack: what holds of every procedure there keeps doing so.
-/

namespace TypeFour

/-! ## Agreeing results -/

section Agree

variable {α β γ δ : Type}

/-- Two results agree: both are successes with related values, or both fail in the same way, and the stacks
are related. After a fault that is excused nothing is asked of the second result. -/
inductive Agree (relates : Stack → Stack → Prop) (excused : Fault → Prop) (A : α → β → Prop) :
    EStateM.Result Fault Stack α → EStateM.Result Fault Stack β → Prop where
  | ok {a b s t} : A a b → relates s t → Agree relates excused A (.ok a s) (.ok b t)
  | error {f s t} : relates s t → Agree relates excused A (.error f s) (.error f t)
  | excused {f s r} : excused f → Agree relates excused A (.error f s) r

/-- Two actions that take related stacks to agreeing results. -/
def Simulates (relates : Stack → Stack → Prop) (excused : Fault → Prop) (A : α → β → Prop)
    (m : Action α) (m' : Action β) : Prop :=
  ∀ s t, relates s t → Agree relates excused A (m s) (m' t)

namespace Simulates

variable {relates : Stack → Stack → Prop} {excused : Fault → Prop} {A : α → β → Prop}
  {B : γ → δ → Prop}

theorem pure {a : α} {b : β} (h : A a b) : Simulates relates excused A (Pure.pure a) (Pure.pure b) :=
  fun _ _ hs => .ok h hs

theorem throw (f : Fault) : Simulates relates excused A (MonadExcept.throw f) (MonadExcept.throw f) :=
  fun _ _ hs => .error hs

/-- **Sequencing.** -/
theorem bind {m : Action α} {m' : Action β} {k : α → Action γ} {k' : β → Action δ}
    (hm : Simulates relates excused A m m')
    (hk : ∀ a b, A a b → Simulates relates excused B (k a) (k' b)) :
    Simulates relates excused B (m >>= k) (m' >>= k') := by
  intro s t hs
  have h := hm s t hs
  show Agree _ _ _ (EStateM.bind m k s) (EStateM.bind m' k' t)
  unfold EStateM.bind
  cases hr : m s with
  | ok a s' =>
    rw [hr] at h
    cases hr' : m' t with
    | ok b t' =>
      rw [hr'] at h
      cases h with
      | ok hab hs' => exact hk a b hab s' t' hs'
    | error f t' =>
      rw [hr'] at h
      cases h
  | error f s' =>
    rw [hr] at h
    cases hr' : m' t with
    | ok b t' =>
      -- only an excused fault can stand against a success
      rw [hr'] at h
      cases h with
      | excused he => exact .excused he
    | error f' t' =>
      rw [hr'] at h
      cases h with
      | error hs' => exact .error hs'
      | excused he => exact .excused he

/-- Results related in one way are related in every weaker way. -/
theorem imp {A' : α → β → Prop} {m : Action α} {m' : Action β} (h : Simulates relates excused A m m')
    (hA : ∀ a b, A a b → A' a b) : Simulates relates excused A' m m' := by
  intro s t hs
  have hst := h s t hs
  generalize m s = r at hst ⊢
  generalize m' t = r' at hst ⊢
  cases hst with
  | ok hab hst => exact .ok (hA _ _ hab) hst
  | error hst => exact .error hst
  | excused hf => exact .excused hf

/-- A choice that depends on neither stack. -/
theorem ite {c : Prop} [Decidable c] {m₁ m₂ : Action α} {m₁' m₂' : Action β}
    (h₁ : Simulates relates excused A m₁ m₁') (h₂ : Simulates relates excused A m₂ m₂') :
    Simulates relates excused A (if c then m₁ else m₂) (if c then m₁' else m₂') := by
  by_cases hc : c
  · simpa only [if_pos hc] using h₁
  · simpa only [if_neg hc] using h₂

end Simulates

end Agree

/-! ## Relations that the primitive actions keep -/

/-- Values that differ at most as `P` lets procedures differ. -/
inductive Related (P : Procedure → Procedure → Prop) : Value → Value → Prop where
  | number (n : Float) : Related P (.number n) (.number n)
  | boolean (b : Bool) : Related P (.boolean b) (.boolean b)
  | procedure {p q : Procedure} : P p q → Related P (.procedure p) (.procedure q)

/-- A relation between stacks, and between the procedures on them, that the primitive actions keep. -/
structure Simulation where
  relates : Stack → Stack → Prop
  procedures : Procedure → Procedure → Prop
  /-- Faults of the first side after which nothing is asked of the second. -/
  excused : Fault → Prop
  /-- Comparison sees no more of procedures than this. -/
  origin_iff {p p' q q' : Procedure} : procedures p p' → procedures q q' →
    (p.origin = q.origin ↔ p'.origin = q'.origin)
  push {v w : Value} : Related procedures v w →
    Simulates relates excused Eq (Stack.push v) (Stack.push w)
  pop : Simulates relates excused (Related procedures) Stack.pop Stack.pop
  peek (n : Nat) : Simulates relates excused (Related procedures) (Stack.peek n) (Stack.peek n)
  exch : Simulates relates excused Eq Stack.exch Stack.exch
  copy (n : Nat) : Simulates relates excused Eq (Stack.copy n) (Stack.copy n)
  roll (n : Nat) (j : Int) : Simulates relates excused Eq (Stack.roll n j) (Stack.roll n j)

namespace Simulation

variable (σ : Simulation)

/-- Two actions that keep the relation. -/
abbrev Keeps {α β : Type} (A : α → β → Prop) (m : Action α) (m' : Action β) : Prop :=
  Simulates σ.relates σ.excused A m m'

/-- An action that keeps the relation, with the same result on both sides. -/
abbrev KeptBy {α : Type} (m : Action α) : Prop :=
  σ.Keeps Eq m m

/-! ### Actions in sequence -/

/-- Two actions one after the other, the second with the result of the first. -/
theorem seq {α β : Type} {m : Action α} {k : α → Action β} (hm : σ.KeptBy m)
    (hk : ∀ a, σ.KeptBy (k a)) : σ.KeptBy (m >>= k) := by
  apply Simulates.bind hm
  rintro a _ rfl
  exact hk a

/-- A fault in place of the rest. -/
theorem guarded {α : Type} {c : Prop} [Decidable c] {f : Fault} {rest : Action α} (h : σ.KeptBy rest) :
    σ.KeptBy (if c then (do throw f; rest) else rest) := by
  apply Simulates.ite
  · apply σ.seq (.throw f)
    intro _
    exact h
  · exact h

/-! ### Typed pops and pushes -/

theorem push_number (n : Float) : σ.KeptBy (Stack.push (.number n)) :=
  σ.push (.number n)

theorem push_boolean (b : Bool) : σ.KeptBy (Stack.push (.boolean b)) :=
  σ.push (.boolean b)

theorem pushNumbers (ns : List Float) : σ.KeptBy (Stack.pushNumbers ns) := by
  induction ns with
  | nil => exact .pure rfl
  | cons n ns ih =>
    apply σ.seq (σ.push_number n)
    intro _
    exact ih

theorem popNumber : σ.KeptBy Stack.popNumber := by
  apply Simulates.bind σ.pop
  intro v w h
  cases h with
  | number n => exact .pure rfl
  | boolean b => exact .throw _
  | procedure hp => exact .throw _

theorem popBoolean : σ.KeptBy Stack.popBoolean := by
  apply Simulates.bind σ.pop
  intro v w h
  cases h with
  | number n => exact .throw _
  | boolean b => exact .pure rfl
  | procedure hp => exact .throw _

theorem popProcedure : σ.Keeps σ.procedures Stack.popProcedure Stack.popProcedure := by
  apply Simulates.bind σ.pop
  intro v w h
  cases h with
  | number n => exact .throw _
  | boolean b => exact .throw _
  | procedure hp => exact .pure hp

theorem popInteger : σ.KeptBy Stack.popInteger := by
  apply σ.seq σ.popNumber
  intro n
  exact .pure rfl

theorem popCount : σ.KeptBy Stack.popCount := by
  apply σ.seq σ.popInteger
  intro n
  exact σ.guarded (.pure rfl)

/-! ### Operators, by shape -/

theorem pushResult (n : Float) : σ.KeptBy (Behaviour.pushResult n) :=
  .ite (σ.push_number n) (.throw _)

theorem unary (f : Float → Float) : σ.KeptBy (Behaviour.unary f) := by
  apply σ.seq σ.popNumber
  intro n
  exact σ.pushResult _

theorem binary (f : Float → Float → Float) : σ.KeptBy (Behaviour.binary f) := by
  apply σ.seq σ.popNumber
  intro n₂
  apply σ.seq σ.popNumber
  intro n₁
  exact σ.pushResult _

theorem quotient (f : Float → Float → Float) : σ.KeptBy (Behaviour.quotient f) := by
  apply σ.seq σ.popNumber
  intro n₂
  apply σ.seq σ.popNumber
  intro n₁
  exact σ.guarded (σ.pushResult _)

theorem comparison (r : Float → Float → Bool) : σ.KeptBy (Behaviour.comparison r) := by
  apply σ.seq σ.popNumber
  intro n₂
  apply σ.seq σ.popNumber
  intro n₁
  exact σ.push_boolean _

theorem modulo : σ.KeptBy Behaviour.modulo := by
  apply σ.seq σ.popInteger
  intro i₂
  apply σ.seq σ.popInteger
  intro i₁
  exact σ.guarded (σ.push_number _)

theorem squareRoot (sqrt : Float → Float) : σ.KeptBy (Behaviour.squareRoot sqrt) := by
  apply σ.seq σ.popNumber
  intro n
  exact σ.guarded (σ.push_number _)

theorem logarithm (log : Float → Float) : σ.KeptBy (Behaviour.logarithm log) := by
  apply σ.seq σ.popNumber
  intro n
  exact σ.guarded (σ.pushResult _)

theorem arctangent (atan2 : Float → Float → Float) : σ.KeptBy (Behaviour.arctangent atan2) := by
  apply σ.seq σ.popNumber
  intro den
  apply σ.seq σ.popNumber
  intro num
  exact σ.guarded (σ.pushResult _)

theorem logical (onBooleans : Bool → Bool → Bool) (onIntegers : Int64 → Int64 → Int64) :
    σ.KeptBy (Behaviour.logical onBooleans onIntegers) := by
  apply Simulates.bind σ.pop
  intro v w h
  cases h with
  | number n₂ =>
    apply σ.seq σ.popInteger
    intro i₁
    exact σ.push_number _
  | boolean b₂ =>
    apply σ.seq σ.popBoolean
    intro b₁
    exact σ.push_boolean _
  | procedure hp => exact .throw _

theorem negation : σ.KeptBy Behaviour.negation := by
  apply Simulates.bind σ.pop
  intro v w h
  cases h with
  | number n => exact σ.push_number _
  | boolean b => exact σ.push_boolean _
  | procedure hp => exact .throw _

theorem shift : σ.KeptBy Behaviour.shift := by
  apply σ.seq σ.popInteger
  intro k
  apply σ.seq σ.popInteger
  intro i
  exact σ.guarded (σ.push_number _)

/-- Related values are equal to each other on both sides, or on neither. -/
theorem beq_related {v v' w w' : Value} (hv : Related σ.procedures v v')
    (hw : Related σ.procedures w w') : (v == w) = (v' == w') := by
  cases hv with
  | number m => cases hw <;> rfl
  | boolean a => cases hw <;> rfl
  | procedure hp =>
    cases hw with
    | number n => rfl
    | boolean b => rfl
    | procedure hq =>
      -- procedures compare by origin
      rw [Bool.eq_iff_iff]
      exact (beq_iff_eq.trans (σ.origin_iff hp hq)).trans beq_iff_eq.symm

theorem equality (negated : Bool) : σ.KeptBy (Behaviour.equality negated) := by
  apply Simulates.bind σ.pop
  intro b b' hb
  apply Simulates.bind σ.pop
  intro a a' ha
  -- what is pushed depends on the comparison alone
  rw [σ.beq_related ha hb]
  exact σ.push_boolean _

theorem dup : σ.KeptBy Stack.dup := by
  apply Simulates.bind (σ.peek 0)
  intro v w h
  exact σ.push h

theorem index (n : Nat) : σ.KeptBy (Stack.index n) := by
  apply Simulates.bind (σ.peek n)
  intro v w h
  exact σ.push h

theorem counted {act : Nat → Action Unit} (h : ∀ n, σ.KeptBy (act n)) :
    σ.KeptBy (Behaviour.counted act) :=
  σ.seq σ.popCount h

theorem rolled : σ.KeptBy Behaviour.rolled := by
  apply σ.seq σ.popInteger
  intro j
  apply σ.seq σ.popCount
  intro n
  exact σ.roll n j.toInt

theorem chooseIf :
    σ.Keeps (Option.Rel σ.procedures) Behaviour.chooseIf Behaviour.chooseIf := by
  apply Simulates.bind σ.popProcedure
  intro p q hp
  apply Simulates.bind σ.popBoolean
  rintro b _ rfl
  cases b with
  | false => exact .pure .none
  | true => exact .pure (.some hp)

theorem chooseIfElse :
    σ.Keeps (Option.Rel σ.procedures) Behaviour.chooseIfElse Behaviour.chooseIfElse := by
  apply Simulates.bind σ.popProcedure
  intro p₂ q₂ h₂
  apply Simulates.bind σ.popProcedure
  intro p₁ q₁ h₁
  apply Simulates.bind σ.popBoolean
  rintro b _ rfl
  cases b with
  | false => exact .pure (.some h₂)
  | true => exact .pure (.some h₁)

/-- Two behaviours that keep the relation. -/
inductive Behave : Behaviour → Behaviour → Prop where
  | plain {act act' : Action Unit} : σ.Keeps Eq act act' → Behave (.plain act) (.plain act')
  | choosing {choice choice' : Action (Option Procedure)} :
      σ.Keeps (Option.Rel σ.procedures) choice choice' → Behave (.choosing choice) (.choosing choice')

/-- **Every operator keeps the relation.** -/
theorem behaviour (e : Elementary) (op : Operator) : σ.Behave (op.behaviour e) (op.behaviour e) := by
  cases op with
  | abs | ceiling | cos | cvi | cvr | floor | neg | round | sin | truncate => exact .plain (σ.unary _)
  | add | exp | mul | sub => exact .plain (σ.binary _)
  | div | idiv => exact .plain (σ.quotient _)
  | ge | gt | le | lt => exact .plain (σ.comparison _)
  | ln | log => exact .plain (σ.logarithm _)
  | and | or | xor => exact .plain (σ.logical _ _)
  | eq | ne => exact .plain (σ.equality _)
  | atan => exact .plain (σ.arctangent _)
  | mod => exact .plain σ.modulo
  | sqrt => exact .plain (σ.squareRoot _)
  | bitshift => exact .plain σ.shift
  | not => exact .plain σ.negation
  | ifTrue => exact .choosing σ.chooseIf
  | ifElse => exact .choosing σ.chooseIfElse
  | copy => exact .plain (σ.counted σ.copy)
  | dup => exact .plain σ.dup
  | exch => exact .plain σ.exch
  | index => exact .plain (σ.counted σ.index)
  | pop => exact .plain (Simulates.bind σ.pop fun _ _ _ => .pure rfl)
  | roll => exact .plain σ.rolled
  | openBrace | closeBrace | noOp => exact .plain (.pure rfl)

end Simulation

/-! ## Replays -/

/-- Instructions that differ at most as `P` lets procedures differ. -/
inductive InstructionRelated (P : Procedure → Procedure → Prop) : Instruction → Instruction → Prop where
  | number (n : Float) : InstructionRelated P (.number n) (.number n)
  | boolean (b : Bool) : InstructionRelated P (.boolean b) (.boolean b)
  | operator (op : Operator) : InstructionRelated P (.operator op) (.operator op)
  | block {o o' : Nat} {body body' : List Instruction} : P ⟨o, body⟩ ⟨o', body'⟩ →
      InstructionRelated P (.block o body) (.block o' body')

/-- Runs that agree: neither has a result, or their results agree. -/
inductive RunAgree (relates : Stack → Stack → Prop) (excused : Fault → Prop) : Run → Run → Prop where
  | none : RunAgree relates excused none none
  | some {r r' : EStateM.Result Fault Stack Unit} : Agree relates excused Eq r r' →
      RunAgree relates excused (some r) (some r')
  | excused {f : Fault} {s : Stack} {r : Run} : excused f →
      RunAgree relates excused (some (.error f s)) r

/-- Steps that agree, and what comes after them. -/
theorem RunAgree.runAll_cons {relates : Stack → Stack → Prop} {excused : Fault → Prop}
    {step step' : Instruction → Stack → Run} {i i' : Instruction} {is is' : List Instruction} {s t : Stack}
    (hi : RunAgree relates excused (step i s) (step' i' t))
    (his : ∀ u v, step i s = Option.some (.ok () u) → relates u v →
      RunAgree relates excused (runAll step is u) (runAll step' is' v)) :
    RunAgree relates excused (runAll step (i :: is) s) (runAll step' (i' :: is') t) := by
  unfold runAll
  generalize step i s = r at hi his ⊢
  generalize step' i' t = r' at hi ⊢
  cases hi with
  | none => exact .none
  | excused hf => exact .excused hf
  | some h =>
    cases h with
    | ok _ hst => exact his _ _ rfl hst
    | error hst => exact .some (.error hst)
    | excused hf => exact .excused hf

namespace Simulation

variable (σ : Simulation)

/-- Two ways to carry out an instruction list that keep the relation. -/
abbrev RunsAgree (bodies : List Instruction → List Instruction → Prop)
    (run run' : List Instruction → Stack → Run) : Prop :=
  ∀ is is', bodies is is' → ∀ s t, σ.relates s t → RunAgree σ.relates σ.excused (run is s) (run' is' t)

/-- An operator keeps the relation when replaying the procedure it chooses does. -/
theorem execute_agree_of_choice (e : Elementary) {again again' : List Instruction → Stack → Run} (op : Operator)
    {s t : Stack} (hs : σ.relates s t)
    (hagain : ∀ choice p q u v, op.behaviour e = .choosing choice → choice s = .ok (some p) u →
      σ.procedures p q → σ.relates u v → RunAgree σ.relates σ.excused (again p.body u) (again' q.body v)) :
    RunAgree σ.relates σ.excused (execute e again op s) (execute e again' op t) := by
  have hop := σ.behaviour e op
  unfold execute
  cases hb : op.behaviour e with
  | plain act =>
    rw [hb] at hop
    cases hop with
    | plain h => exact .some (h s t hs)
  | choosing choice =>
    rw [hb] at hop
    cases hop with
    | choosing h =>
      -- the choices agree
      have hc := h s t hs
      have hagain' := hagain choice
      simp only
      generalize choice s = r at hc hagain' ⊢
      generalize choice t = r' at hc ⊢
      cases hc with
      | ok hp hst =>
        cases hp with
        | none => exact .some (.ok rfl hst)
        | some hpq => exact hagain' _ _ _ _ hb rfl hpq hst
      | error hst => exact .some (.error hst)
      | excused hf => exact .excused hf

variable {bodies : List Instruction → List Instruction → Prop}
  (hbody : ∀ p q, σ.procedures p q → bodies p.body q.body)

include hbody

/-- An operator keeps the relation when every replay does. -/
theorem execute_agree (e : Elementary) {again again' : List Instruction → Stack → Run}
    (hagain : σ.RunsAgree bodies again again') (op : Operator) {s t : Stack} (hs : σ.relates s t) :
    RunAgree σ.relates σ.excused (execute e again op s) (execute e again' op t) :=
  σ.execute_agree_of_choice e op hs fun _ p q u v _ _ hpq huv => hagain _ _ (hbody p q hpq) u v huv

/-- An instruction keeps the relation when replaying what it chooses does. -/
theorem perform_agree (e : Elementary) {again again' : List Instruction → Stack → Run}
    (hagain : σ.RunsAgree bodies again again') {i i' : Instruction}
    (hi : InstructionRelated σ.procedures i i') {s t : Stack} (hs : σ.relates s t) :
    RunAgree σ.relates σ.excused (perform e again i s) (perform e again' i' t) := by
  cases hi with
  | number n => exact .some (σ.push_number n s t hs)
  | boolean b => exact .some (σ.push_boolean b s t hs)
  | operator op => exact σ.execute_agree hbody e hagain op hs
  | block hp => exact .some (σ.push (.procedure hp) s t hs)

omit hbody in
/-- **A run of steps.** If each step keeps the relation then so do the steps in a row. -/
theorem runAll_agree {step step' : Instruction → Stack → Run} {I : Instruction → Instruction → Prop}
    (hstep : ∀ i i', I i i' → ∀ s t, σ.relates s t → RunAgree σ.relates σ.excused (step i s) (step' i' t))
    {is is' : List Instruction} (his : List.Forall₂ I is is') :
    ∀ s t, σ.relates s t → RunAgree σ.relates σ.excused (runAll step is s) (runAll step' is' t) := by
  induction his with
  | nil =>
    intro s t hs
    exact .some (.ok rfl hs)
  | cons hi _ ih =>
    intro s t hs
    exact .runAll_cons (hstep _ _ hi s t hs) fun u v _ => ih u v

omit hbody in
/-- **Replays keep the relation**, if related procedures have related instructions. -/
theorem replay_agree
    (hbody : ∀ p q, σ.procedures p q →
      List.Forall₂ (InstructionRelated σ.procedures) p.body q.body)
    (e : Elementary) (n : Nat) :
    σ.RunsAgree (List.Forall₂ (InstructionRelated σ.procedures)) (replay e n) (replay e n) := by
  -- on the bound: what an operator chooses is replayed under the next smaller one
  induction n with
  | zero =>
    intro is is' _ s t _
    exact .none
  | succ n ih =>
    intro is is' his
    apply σ.runAll_agree (I := InstructionRelated σ.procedures) _ his
    intro i i' hi s t hs
    exact σ.perform_agree hbody e ih hi hs

end Simulation

/-! ### Relations that are functions -/

/-- The run with the stack that it leaves changed. -/
def Run.onStack (g : Stack → Stack) (r : Run) : Run :=
  r.map fun
    | .ok _ s => .ok () (g s)
    | .error f s => .error f (g s)

/-- When the second stack is a function of the first, so is the second of two runs that agree, unless the
first ends with an excused fault. -/
theorem RunAgree.eq_onStack {relates : Stack → Stack → Prop} {excused : Fault → Prop} {r r' : Run}
    {g : Stack → Stack} (h : RunAgree relates excused r r') (hg : ∀ s t, relates s t → t = g s)
    (hr : ∀ f s, excused f → r ≠ Option.some (.error f s)) : r' = r.onStack g := by
  cases h with
  | none => rfl
  | excused hf => exact absurd rfl (hr _ _ hf)
  | some h =>
    cases h with
    | ok _ hs =>
      obtain rfl := hg _ _ hs
      rfl
    | error hs =>
      obtain rfl := hg _ _ hs
      rfl
    | excused hf => exact absurd rfl (hr _ _ hf)

/-! ## Stacks related value by value -/

/-- Stacks with the same limit whose values are related one by one. -/
structure Pointwise (P : Procedure → Procedure → Prop) (limit : Option Nat) (s t : Stack) : Prop where
  items : List.Forall₂ (Related P) s.items t.items
  left : s.limit = limit
  right : t.limit = limit

namespace Pointwise

variable {P : Procedure → Procedure → Prop} {limit : Option Nat} {s t : Stack}

theorem size (h : Pointwise P limit s t) : s.size = t.size :=
  h.items.length_eq

theorem hasRoom (h : Pointwise P limit s t) (n : Nat) : s.hasRoom n = t.hasRoom n := by
  unfold Stack.hasRoom
  rw [h.left, h.right, h.size]

/-- Other values on stacks whose limits stay as they are. -/
theorem withItems (h : Pointwise P limit s t) {vs ws : List Value} (hvs : List.Forall₂ (Related P) vs ws) :
    Pointwise P limit { s with items := vs } { t with items := ws } :=
  ⟨hvs, h.left, h.right⟩

variable {excused : Fault → Prop}

theorem push {v w : Value} (hv : Related P v w) :
    Simulates (Pointwise P limit) excused Eq (Stack.push v) (Stack.push w) := by
  intro s t h
  unfold Stack.push
  rw [h.hasRoom]
  by_cases hr : t.hasRoom 1 = true
  · rw [if_pos hr, if_pos hr]
    exact .ok rfl (h.withItems (.cons hv h.items))
  · rw [if_neg hr, if_neg hr]
    exact .error h

theorem pop : Simulates (Pointwise P limit) excused (Related P) Stack.pop Stack.pop := by
  intro s t h
  have hitems := h.items
  unfold Stack.pop
  cases hs : s.items with
  | nil =>
    rw [hs] at hitems
    cases ht : t.items with
    | nil => exact .error h
    | cons w ws =>
      rw [ht] at hitems
      cases hitems
  | cons v vs =>
    rw [hs] at hitems
    cases ht : t.items with
    | nil =>
      rw [ht] at hitems
      cases hitems
    | cons w ws =>
      rw [ht] at hitems
      cases hitems with
      | cons hv hvs => exact .ok hv (h.withItems hvs)

theorem peek (n : Nat) :
    Simulates (Pointwise P limit) excused (Related P) (Stack.peek n) (Stack.peek n) := by
  intro s t h
  have hlen : s.items.length = t.items.length := h.size
  unfold Stack.peek
  by_cases hn : n < s.items.length
  · rw [List.getElem?_eq_getElem hn, List.getElem?_eq_getElem (hlen ▸ hn)]
    exact .ok (h.items.get hn (hlen ▸ hn)) h
  · rw [List.getElem?_eq_none (Nat.le_of_not_lt hn),
      List.getElem?_eq_none (hlen ▸ Nat.le_of_not_lt hn)]
    exact .error h

theorem exch : Simulates (Pointwise P limit) excused Eq Stack.exch Stack.exch := by
  intro s t h
  have hitems := h.items
  unfold Stack.exch
  match hs : s.items, ht : t.items with
  | [], [] => exact .error h
  | [v], [w] => exact .error h
  | v :: v' :: vs, w :: w' :: ws =>
    rw [hs, ht] at hitems
    obtain ⟨hv, hv', hvs⟩ : Related P v w ∧ Related P v' w' ∧ List.Forall₂ (Related P) vs ws := by
      simpa using hitems
    exact .ok rfl (h.withItems (.cons hv' (.cons hv hvs)))
  -- related stacks are equally high
  | [], _ :: _ | _ :: _, [] | [_], _ :: _ :: _ | _ :: _ :: _, [_] =>
    rw [hs, ht] at hitems
    simp at hitems

theorem copy (n : Nat) :
    Simulates (Pointwise P limit) excused Eq (Stack.copy n) (Stack.copy n) := by
  intro s t h
  unfold Stack.copy
  rw [h.size, h.hasRoom]
  by_cases hn : t.size < n
  · rw [if_pos hn, if_pos hn]
    exact .error h
  rw [if_neg hn, if_neg hn]
  by_cases hr : t.hasRoom n = true
  · rw [if_pos hr, if_pos hr]
    exact .ok rfl (h.withItems (List.rel_append (List.forall₂_take n h.items) h.items))
  · rw [if_neg hr, if_neg hr]
    exact .error h

theorem roll (n : Nat) (j : Int) :
    Simulates (Pointwise P limit) excused Eq (Stack.roll n j) (Stack.roll n j) := by
  intro s t h
  unfold Stack.roll
  rw [h.size]
  by_cases hn : t.size < n
  · rw [if_pos hn, if_pos hn]
    exact .error h
  · rw [if_neg hn, if_neg hn]
    have hwindow := List.forall₂_take n h.items
    have hturned := List.rel_append (List.forall₂_drop (j % n).toNat hwindow)
      (List.forall₂_take (j % n).toNat hwindow)
    exact .ok rfl (h.withItems (List.rel_append hturned (List.forall₂_drop n h.items)))

end Pointwise

/-- Stacks related value by value, no fault excused. -/
def Simulation.pointwise (P : Procedure → Procedure → Prop) (limit : Option Nat)
    (origin_iff : ∀ {p p' q q'}, P p p' → P q q' → (p.origin = q.origin ↔ p'.origin = q'.origin)) :
    Simulation where
  relates := Pointwise P limit
  procedures := P
  excused _ := False
  origin_iff := origin_iff
  push := Pointwise.push
  pop := Pointwise.pop
  peek := Pointwise.peek
  exch := Pointwise.exch
  copy := Pointwise.copy
  roll := Pointwise.roll

/-! ## One stack -/

/-- The value has the property `ok`, if it is a procedure. -/
def Value.Meets (ok : Procedure → Prop) : Value → Prop
  | .procedure p => ok p
  | _ => True

/-- What the instruction pushes has the property `ok`, if it is a procedure. -/
def Instruction.Meets (ok : Procedure → Prop) : Instruction → Prop
  | .block origin body => ok ⟨origin, body⟩
  | _ => True

/-- A stack with this limit, every procedure on which has the property `ok`. -/
structure Stack.All (ok : Procedure → Prop) (limit : Option Nat) (s : Stack) : Prop where
  items : ∀ v ∈ s.items, v.Meets ok
  limit : s.limit = limit

/-- A stack related to itself, by equality of procedures with a property. -/
def Simulation.all (ok : Procedure → Prop) (limit : Option Nat) : Simulation :=
  .pointwise (fun p q => p = q ∧ ok p) limit (by
    rintro p _ q _ ⟨rfl, _⟩ ⟨rfl, _⟩
    exact Iff.rfl)

variable {ok : Procedure → Prop} {limit : Option Nat}

theorem Value.related_self {v : Value} :
    Related (fun p q => p = q ∧ ok p) v v ↔ v.Meets ok := by
  constructor
  · intro h
    cases h with
    | number n => trivial
    | boolean b => trivial
    | procedure hp => exact hp.2
  · intro h
    cases v with
    | number n => exact .number n
    | boolean b => exact .boolean b
    | procedure p => exact .procedure ⟨rfl, h⟩

theorem Instruction.related_self {i : Instruction} (h : i.Meets ok) :
    InstructionRelated (fun p q => p = q ∧ ok p) i i := by
  cases i with
  | number n => exact .number n
  | boolean b => exact .boolean b
  | operator op => exact .operator op
  | block origin body => exact .block ⟨rfl, h⟩

namespace Stack

variable {s t : Stack}

theorem pointwise_self : (Simulation.all ok limit).relates s s ↔ s.All ok limit := by
  constructor
  · intro h
    refine ⟨?_, h.left⟩
    intro v hv
    exact Value.related_self.mp (List.forall₂_same.mp h.items v hv)
  · intro h
    refine ⟨List.forall₂_same.mpr ?_, h.limit, h.limit⟩
    intro v hv
    exact Value.related_self.mpr (h.items v hv)

namespace All

theorem imp {ok' : Procedure → Prop} (h : s.All ok limit) (hok : ∀ p, ok p → ok' p) : s.All ok' limit := by
  refine ⟨?_, h.limit⟩
  intro v hv
  cases v with
  | number n => trivial
  | boolean b => trivial
  | procedure p => exact hok p (h.items _ hv)

theorem of_keptBy {α : Type} {act : Action α} {a : α} (hact : (Simulation.all ok limit).KeptBy act)
    (hs : s.All ok limit) (h : act s = .ok a t) : t.All ok limit := by
  have hagree := hact s s (pointwise_self.mpr hs)
  rw [h] at hagree
  cases hagree with
  | ok _ ht => exact pointwise_self.mp ht

theorem push {v : Value} (hv : v.Meets ok) (hs : s.All ok limit)
    (h : Stack.push v s = .ok () t) : t.All ok limit :=
  hs.of_keptBy ((Simulation.all ok limit).push (Value.related_self.mpr hv)) h

theorem pushNumbers {ns : List Float} (hs : s.All ok limit)
    (h : Stack.pushNumbers ns s = .ok () t) : t.All ok limit :=
  hs.of_keptBy ((Simulation.all ok limit).pushNumbers ns) h

/-- Inputs are numbers, so a stack that holds them alone has no procedure on it. -/
theorem of_inputs {inputs : List Float} (h : Stack.pushNumbers inputs { limit } = .ok () s) :
    s.All ok limit := by
  have hempty : Stack.All ok limit { limit } := ⟨by simp, rfl⟩
  exact hempty.pushNumbers h

/-- A run related to itself leaves such a stack, if it succeeds. -/
theorem of_runAgree {r : Run} {excused : Fault → Prop}
    (hagree : RunAgree (Simulation.all ok limit).relates excused r r)
    (h : r = some (.ok () t)) : t.All ok limit := by
  rw [h] at hagree
  cases hagree with
  | some hresult =>
    cases hresult with
    | ok _ ht => exact pointwise_self.mp ht

/-- What an operator chooses was on the stack. -/
theorem choice {e : Elementary} {op : Operator} {choice : Action (Option Procedure)}
    {c : Option Procedure} (hb : op.behaviour e = .choosing choice) (hs : s.All ok limit)
    (h : choice s = .ok c t) : (∀ p ∈ c, ok p) ∧ t.All ok limit := by
  have hop := (Simulation.all ok limit).behaviour e op
  rw [hb] at hop
  cases hop with
  | choosing hkeep =>
    have hagree := hkeep s s (pointwise_self.mpr hs)
    rw [h] at hagree
    cases hagree with
    | ok hc ht =>
      refine ⟨?_, pointwise_self.mp ht⟩
      rintro p rfl
      cases hc with
      | some hp => exact hp.2

section Replay

variable (hbody : ∀ p, ok p → ∀ i ∈ p.body, i.Meets ok) {e : Elementary} {n : Nat}

include hbody

theorem bodies (p q : Procedure) (h : (Simulation.all ok limit).procedures p q) :
    List.Forall₂ (InstructionRelated (Simulation.all ok limit).procedures) p.body q.body := by
  obtain ⟨rfl, hp⟩ := h
  rw [List.forall₂_same]
  intro i hi
  exact Instruction.related_self (hbody p hp i hi)

/-- An operator, with all that it replays, cannot tell such a stack from itself. -/
theorem execute_self (hs : s.All ok limit) (op : Operator) :
    RunAgree (Simulation.all ok limit).relates (Simulation.all ok limit).excused
      (TypeFour.execute e (TypeFour.replay e n) op s) (TypeFour.execute e (TypeFour.replay e n) op s) :=
  (Simulation.all ok limit).execute_agree (bodies hbody) e
    ((Simulation.all ok limit).replay_agree (bodies hbody) e n) op (pointwise_self.mpr hs)

/-- Neither can a replay of instructions that push no other procedures. -/
theorem replay_self (hs : s.All ok limit) {body : List Instruction} (hi : ∀ i ∈ body, i.Meets ok) :
    RunAgree (Simulation.all ok limit).relates (Simulation.all ok limit).excused
      (TypeFour.replay e n body s) (TypeFour.replay e n body s) := by
  have hself : List.Forall₂ (InstructionRelated (Simulation.all ok limit).procedures) body body := by
    rw [List.forall₂_same]
    intro i hmem
    exact Instruction.related_self (hi i hmem)
  exact (Simulation.all ok limit).replay_agree (bodies hbody) e n body body hself s s
    (pointwise_self.mpr hs)

theorem execute {op : Operator} (hs : s.All ok limit)
    (h : execute e (TypeFour.replay e n) op s = some (.ok () t)) : t.All ok limit :=
  of_runAgree (hs.execute_self hbody op) h

/-- A replay leaves on the stack what was there, copies of it, and inner blocks of what it replays. -/
theorem replay {body : List Instruction} (hi : ∀ i ∈ body, i.Meets ok) (hs : s.All ok limit)
    (h : TypeFour.replay e n body s = some (.ok () t)) : t.All ok limit :=
  of_runAgree (hs.replay_self hbody hi) h

end Replay

end All

end Stack

end TypeFour
