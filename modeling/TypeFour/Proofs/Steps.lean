import TypeFour.Session

/-!
# `TypeFour.Proofs.Steps` — what an accepted token has done

A session takes a token in one of four ways: it delivers a value, carries out or records an operator, opens a
block or closes one. For each of them one lemma says all that a success can have done to the session.
Invariants of sessions are derived from these lemmas.

## Contents
- `Action.outcome_eq_ok` — actions that succeed.
- `deliver_ok`, `operate_ok`, `openBlock_ok`, `closeBlock_ok` — the four ways.
-/

namespace TypeFour

variable {e : Elementary} {n : Nat} {o : Options}

theorem Action.outcome_eq_ok {α : Type} {act : Action α} {s t : Stack} (h : act.outcome s = .ok t) :
    ∃ a, act s = .ok a t := by
  unfold outcome at h
  cases hr : act s with
  | ok a u =>
    rw [hr] at h
    cases h
    exact ⟨a, rfl⟩
  | error f u =>
    rw [hr] at h
    cases h

namespace Session

variable {s u : Session}

/-- **A value** is recorded, or it is pushed. -/
theorem deliver_ok {v : Value} (h : s.deliver v = .ok u) :
    (∃ r rs, s.recordings = r :: rs ∧ u = { s with recordings := r.add v.toInstruction :: rs }) ∨
      s.recordings = [] ∧ ∃ stack, Stack.push v s.stack = .ok () stack ∧ u = { s with stack } := by
  unfold deliver at h
  cases hrec : s.recordings with
  | cons r rs =>
    rw [hrec] at h
    cases h
    exact .inl ⟨r, rs, rfl, rfl⟩
  | nil =>
    rw [hrec] at h
    simp only at h
    cases hp : Action.outcome (Stack.push v) s.stack with
    | error f =>
      rw [hp] at h
      cases h
    | ok stack =>
      rw [hp] at h
      cases h
      obtain ⟨_, hpush⟩ := Action.outcome_eq_ok hp
      exact .inr ⟨rfl, stack, hpush, by rw [← hrec]⟩

/-- **An operator** is recorded, or it is executed. -/
theorem operate_ok {op : Operator} (h : s.operate e n op = some (.ok u)) :
    (∃ r rs, s.recordings = r :: rs ∧ u = { s with recordings := r.add (.operator op) :: rs }) ∨
      s.recordings = [] ∧
        ∃ stack, execute e (replay e n) op s.stack = some (.ok () stack) ∧ u = { s with stack } := by
  unfold operate at h
  cases hrec : s.recordings with
  | cons r rs =>
    rw [hrec] at h
    cases h
    exact .inl ⟨r, rs, rfl, rfl⟩
  | nil =>
    rw [hrec] at h
    simp only at h
    cases hx : execute e (replay e n) op s.stack with
    | none =>
      rw [hx] at h
      cases h
    | some r =>
      rw [hx] at h
      cases r with
      | error f t => cases h
      | ok _ stack =>
        cases h
        exact .inr ⟨rfl, stack, rfl, by rw [← hrec]⟩

/-- **An opening brace** is within the limit. The outermost records nothing. -/
theorem openBlock_ok (h : s.openBlock o = .ok u) : s.depth < o.maxNestingDepth ∧
    u = { s with
      depth := s.depth + 1
      opened := s.opened + 1
      recordings := if s.depth = 0 then s.recordings else ⟨s.opened, []⟩ :: s.recordings } := by
  unfold openBlock at h
  by_cases hlim : o.maxNestingDepth ≤ s.depth
  · rw [if_pos hlim] at h
    cases h
  · rw [if_neg hlim] at h
    cases h
    exact ⟨Nat.lt_of_not_le hlim, rfl⟩

/-- **A closing brace** where none is open is passed over. The outermost closes no recording, and any other
delivers the innermost. -/
theorem closeBlock_ok (h : s.closeBlock o = .ok u) :
    s.depth = 0 ∧ o.unknownTokens = .lenient ∧ u = s ∨
    s.depth = 1 ∧ u = { s with depth := 0 } ∨
    ∃ d, s.depth = d + 2 ∧
      (s.recordings = [] ∧ u = { s with depth := d + 1 } ∨
        ∃ r rs v, s.recordings = r :: rs ∧
          deliver (.procedure r.toProcedure) { s with recordings := rs } = .ok v ∧
          u = { v with depth := d + 1 }) := by
  obtain ⟨stack, recordings, depth, opened⟩ := s
  unfold closeBlock at h
  match depth, recordings with
  | 0, _ =>
    cases hpol : o.unknownTokens with
    | strict =>
      simp only [hpol] at h
      cases h
    | lenient =>
      simp only [hpol] at h
      cases h
      exact .inl ⟨rfl, rfl, rfl⟩
  | 1, _ =>
    cases h
    exact .inr (.inl ⟨rfl, rfl⟩)
  | d + 2, [] =>
    cases h
    exact .inr (.inr ⟨d, rfl, .inl ⟨rfl, rfl⟩⟩)
  | d + 2, r :: rs =>
    simp only at h
    cases hdel : deliver (.procedure r.toProcedure) ⟨stack, rs, d + 2, opened⟩ with
    | error f =>
      rw [hdel] at h
      cases h
    | ok v =>
      rw [hdel] at h
      cases h
      exact .inr (.inr ⟨d, rfl, .inr ⟨r, rs, v, rfl, hdel, rfl⟩⟩)

end Session

end TypeFour
