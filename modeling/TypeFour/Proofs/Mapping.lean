import TypeFour.Proofs.Simulation

/-!
# `TypeFour.Proofs.Mapping` — procedures replaced by others

If every procedure on a stack is replaced by another, and different origins stay different, then no operator
can tell: a simulation whose relation is a function. What is left to show for a replay is how the
instructions of the other procedures are carried out.

## Contents
- `Value.mapProcedures`, `Stack.mapProcedures` — the replacement.
- `Value.related_map`, `Stack.pointwise_map`, `Stack.eq_mapProcedures` — the relation is the function.
- `Simulation.mapping` — the simulation; `Stack.mapProcedures_of_all` — stacks without procedures.
-/

namespace TypeFour

/-- The value, with `g p` in place of a procedure `p`. -/
def Value.mapProcedures (g : Procedure → Procedure) : Value → Value
  | .number x => .number x
  | .boolean b => .boolean b
  | .procedure p => .procedure (g p)

/-- The stack, with `g p` in place of every procedure `p` on it. -/
def Stack.mapProcedures (g : Procedure → Procedure) (s : Stack) : Stack :=
  { s with items := s.items.map (Value.mapProcedures g) }

variable {g : Procedure → Procedure} {limit : Option Nat}

theorem Value.related_map {v w : Value} : Related (fun p q => q = g p) v w ↔ w = v.mapProcedures g := by
  constructor
  · intro h
    cases h with
    | number x => rfl
    | boolean b => rfl
    | procedure hp => rw [hp]; rfl
  · rintro rfl
    cases v with
    | number x => exact .number x
    | boolean b => exact .boolean b
    | procedure p => exact .procedure rfl

theorem Value.forall₂_map {vs ws : List Value} :
    List.Forall₂ (Related fun p q => q = g p) vs ws ↔ ws = vs.map (Value.mapProcedures g) := by
  constructor
  · intro h
    induction h with
    | nil => rfl
    | cons hv _ ih => rw [List.map_cons, ← Value.related_map.mp hv, ← ih]
  · rintro rfl
    exact List.forall₂_map_right_iff.mpr (List.forall₂_same.mpr fun _ _ => related_map.mpr rfl)

theorem Stack.pointwise_map {s t : Stack} :
    Pointwise (fun p q => q = g p) limit s t ↔ s.limit = limit ∧ t = s.mapProcedures g := by
  constructor
  · intro h
    obtain ⟨hitems, hleft, hright⟩ := h
    obtain ⟨items, limit'⟩ := t
    obtain rfl := Value.forall₂_map.mp hitems
    exact ⟨hleft, by rw [mapProcedures, hleft, ← hright]⟩
  · rintro ⟨hlimit, rfl⟩
    exact ⟨Value.forall₂_map.mpr rfl, hlimit, hlimit⟩

/-- Whatever else the relation says, if it says that the second procedure is a function of the first, then the
second stack is. -/
theorem Stack.eq_mapProcedures {P : Procedure → Procedure → Prop} {s t : Stack} (h : Pointwise P limit s t)
    (hP : ∀ p q, P p q → q = g p) : t = s.mapProcedures g := by
  have hitems : List.Forall₂ (Related fun p q => q = g p) s.items t.items := by
    refine h.items.imp fun v w hvw => ?_
    cases hvw with
    | number x => exact .number x
    | boolean b => exact .boolean b
    | procedure hp => exact .procedure (hP _ _ hp)
  exact (pointwise_map.mp ⟨hitems, h.left, h.right⟩).2

/-- A stack without procedures stays as it is. -/
theorem Stack.mapProcedures_of_all {s : Stack} (h : s.All (fun _ => False) limit) :
    s.mapProcedures g = s := by
  have hitems : s.items.map (Value.mapProcedures g) = s.items := by
    refine (List.map_congr_left fun v hv => ?_).trans (List.map_id s.items)
    cases v with
    | number x => rfl
    | boolean b => rfl
    | procedure p => exact (h.items _ hv).elim
  rw [mapProcedures, hitems]

/-- A replacement that keeps apart what has different origins, as a relation that the primitive actions
keep. -/
def Simulation.mapping (g : Procedure → Procedure)
    (hg : ∀ p q : Procedure, p.origin = q.origin ↔ (g p).origin = (g q).origin) (limit : Option Nat) :
    Simulation :=
  .pointwise (fun p q => q = g p) limit (by
    rintro p _ q _ rfl rfl
    exact hg p q)

end TypeFour
