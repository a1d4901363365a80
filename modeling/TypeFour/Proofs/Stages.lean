import TypeFour.Proofs.Delivered
import TypeFour.Proofs.Faults

/-!
# `TypeFour.Proofs.Stages` — an evaluation, stage by stage

An evaluation has three stages: the inputs are pushed, the words that are read are worked through, and then
comes whatever stopped the reading, or the end of the data. Each stage begins where the one before it
succeeded. So an evaluation that succeeds has been through all of them, and one that fails has failed in one
of them, the earlier ones having succeeded.

## Contents
- `Outcome.andThen_eq_ok`, `andThen_eq_error`, `andThen_assoc` — outcomes in sequence.
- `Outcome.Follows` — one outcome goes the way of another, up to excused faults.
- `Transcript.evaluate_eq_andThen`, `Delivered.evaluate_eq_andThen` — the stages.
- `Delivered.transcript_fault` — what can stop the reading.
- `Delivered.evaluate_ok`, `Delivered.evaluate_fault` — evaluations that succeed or fail.
-/

namespace TypeFour

/-! ## Outcomes in sequence -/

namespace Outcome

variable {α β γ : Type}

section

variable {r : Outcome α} {k : α → Outcome β}

theorem andThen_eq_ok {b : β} :
    r.andThen k = some (.ok b) ↔ ∃ a, r = some (.ok a) ∧ k a = some (.ok b) := by
  match r with
  | none => simp [andThen]
  | some (.ok a) => simp [andThen]
  | some (.error f) => simp [andThen]

theorem andThen_eq_error {f : Fault} :
    r.andThen k = some (.error f) ↔
      r = some (.error f) ∨ ∃ a, r = some (.ok a) ∧ k a = some (.error f) := by
  match r with
  | none => simp [andThen]
  | some (.ok a) => simp [andThen]
  | some (.error g) => simp [andThen]

end

theorem andThen_assoc (r : Outcome α) (k : α → Outcome β) (l : β → Outcome γ) :
    (r.andThen k).andThen l = r.andThen fun a => (k a).andThen l := by
  match r with
  | none => rfl
  | some (.ok a) => rfl
  | some (.error f) => rfl

/-! ## One outcome after the model of another -/

variable {γ' : Type} {excused : Fault → Prop}

/-- The second outcome follows the first: neither is there, or both are results that are related, or both are
the same fault. After a fault that is excused nothing is asked of the second. -/
inductive Follows (excused : Fault → Prop) (A : α → β → Prop) : Outcome α → Outcome β → Prop where
  | none : Follows excused A none none
  | ok {a b} : A a b → Follows excused A (some (.ok a)) (some (.ok b))
  | error (f) : Follows excused A (some (.error f)) (some (.error f))
  | excused {f r} : excused f → Follows excused A (some (.error f)) r

namespace Follows

variable {A : α → β → Prop} {B : γ → γ' → Prop} {r : Outcome α} {r' : Outcome β}

/-- **Sequencing**, where what follows may rely on the result that the first outcome is. -/
theorem andThen_of_ok {k : α → Outcome γ} {k' : β → Outcome γ'} (h : Follows excused A r r')
    (hk : ∀ a b, r = some (.ok a) → A a b → Follows excused B (k a) (k' b)) :
    Follows excused B (r.andThen k) (r'.andThen k') := by
  cases h with
  | none => exact .none
  | ok hab => exact hk _ _ rfl hab
  | error f => exact .error f
  | excused hf => exact .excused hf

/-- **Sequencing.** -/
theorem andThen {k : α → Outcome γ} {k' : β → Outcome γ'} (h : Follows excused A r r')
    (hk : ∀ a b, A a b → Follows excused B (k a) (k' b)) :
    Follows excused B (r.andThen k) (r'.andThen k') :=
  h.andThen_of_ok fun a b _ => hk a b

/-- Results taken further on both sides. -/
theorem map {x : Except Fault α} {y : Except Fault β} {g : α → γ} {g' : β → γ'}
    (h : Follows excused A (some x) (some y)) (hg : ∀ a b, A a b → B (g a) (g' b)) :
    Follows excused B (some (x.map g)) (some (y.map g')) := by
  cases h with
  | ok hab => exact .ok (hg _ _ hab)
  | error f => exact .error f
  | excused hf => exact .excused hf

theorem refl (excused : Fault → Prop) (r : Outcome α) : Follows excused Eq r r := by
  match r with
  | .none => exact .none
  | some (.ok a) => exact .ok rfl
  | some (.error f) => exact .error f

theorem exists_ok (h : Follows excused A r r') {a : α} (hr : r = some (.ok a)) :
    ∃ b, r' = some (.ok b) ∧ A a b := by
  subst hr
  cases h with
  | ok hab => exact ⟨_, rfl, hab⟩

theorem eq_error (h : Follows excused A r r') {f : Fault} (hr : r = some (.error f)) (hf : ¬excused f) :
    r' = some (.error f) := by
  subst hr
  cases h with
  | error => rfl
  | excused he => exact absurd he hf

end Follows

end Outcome

/-! ## The stages -/

variable {e : Elementary} {n : Nat} {o : Options}

/-- What comes after the words: the fault that stopped the reading, or the end of the data. -/
def Transcript.conclude (o : Options) (t : Transcript) (s : Session) : Except Fault Stack :=
  match t.fault with
  | some f => .error f
  | none => s.finish o

theorem Transcript.evaluate_eq_andThen (t : Transcript) (stack : Stack) :
    t.evaluate e n o stack =
      (Session.run e n o t.words { stack }).andThen fun s => some (t.conclude o s) := by
  unfold evaluate conclude
  match Session.run e n o t.words { stack } with
  | none => rfl
  | some (.error f) => rfl
  | some (.ok s) => cases t.fault <;> rfl

namespace Delivered

variable {d : Delivered} {inputs : List Float} {f : Fault}

theorem evaluate_eq_andThen (d : Delivered) (inputs : List Float) : d.evaluate e n o inputs =
    Outcome.andThen (some (Action.outcome (Stack.pushNumbers inputs) { limit := o.maxStackDepth }))
      ((d.transcript (max o.bufferCapacity 1)).evaluate e n o) := by
  unfold evaluate
  cases Action.outcome (Stack.pushNumbers inputs) { limit := o.maxStackDepth } <;> rfl

/-- **What stops the reading**: a word that is too long, or data that cannot be read. -/
theorem transcript_fault {capacity : Nat} (h : (d.transcript capacity).fault = some f) :
    f = .limitCheck ∨ ∃ reason, f = .unreadable reason := by
  unfold transcript at h
  simp only at h
  split at h
  · cases h
    exact .inl rfl
  · cases hd : d.failure with
    | none =>
      rw [hd] at h
      cases h
    | some reason =>
      rw [hd] at h
      cases h
      exact .inr ⟨reason, rfl⟩

/-- **An evaluation that succeeds**: the inputs find room, all words are accepted, nothing stops the reading,
and neither does the end of the data. -/
theorem evaluate_ok {t : Stack} (h : d.evaluate e n o inputs = some (.ok t)) :
    ∃ stack s, Action.outcome (Stack.pushNumbers inputs) { limit := o.maxStackDepth } = .ok stack ∧
      Session.run e n o (d.transcript (max o.bufferCapacity 1)).words { stack } = some (.ok s) ∧
      (d.transcript (max o.bufferCapacity 1)).fault = none ∧ s.finish o = .ok t := by
  rw [evaluate_eq_andThen] at h
  obtain ⟨stack, hinputs, hwords⟩ := Outcome.andThen_eq_ok.mp h
  rw [Transcript.evaluate_eq_andThen] at hwords
  obtain ⟨s, hrun, hend⟩ := Outcome.andThen_eq_ok.mp hwords
  refine ⟨stack, s, Option.some.inj hinputs, hrun, ?_⟩
  have hend := Option.some.inj hend
  unfold Transcript.conclude at hend
  cases hfault : (d.transcript (max o.bufferCapacity 1)).fault with
  | none =>
    rw [hfault] at hend
    exact ⟨rfl, hend⟩
  | some g =>
    rw [hfault] at hend
    cases hend

/-- **An evaluation that fails** does so at the inputs, at a word, where the reading stops or at the end of
the data. -/
theorem evaluate_fault (h : d.evaluate e n o inputs = some (.error f)) :
    Action.outcome (Stack.pushNumbers inputs) { limit := o.maxStackDepth } = .error f ∨
      ∃ stack, Action.outcome (Stack.pushNumbers inputs) { limit := o.maxStackDepth } = .ok stack ∧
        (Session.run e n o (d.transcript (max o.bufferCapacity 1)).words { stack } = some (.error f) ∨
          ∃ s, Session.run e n o (d.transcript (max o.bufferCapacity 1)).words { stack } = some (.ok s) ∧
            ((d.transcript (max o.bufferCapacity 1)).fault = some f ∨
              (d.transcript (max o.bufferCapacity 1)).fault = none ∧ s.finish o = .error f)) := by
  rw [evaluate_eq_andThen] at h
  refine (Outcome.andThen_eq_error.mp h).imp Option.some.inj ?_
  rintro ⟨stack, hinputs, hwords⟩
  refine ⟨stack, Option.some.inj hinputs, ?_⟩
  rw [Transcript.evaluate_eq_andThen] at hwords
  refine (Outcome.andThen_eq_error.mp hwords).imp_right ?_
  rintro ⟨s, hrun, hend⟩
  refine ⟨s, hrun, ?_⟩
  have hend := Option.some.inj hend
  unfold Transcript.conclude at hend
  cases hfault : (d.transcript (max o.bufferCapacity 1)).fault with
  | none =>
    rw [hfault] at hend
    exact .inr ⟨rfl, hend⟩
  | some g =>
    rw [hfault] at hend
    cases hend
    exact .inl rfl

end Delivered

end TypeFour
