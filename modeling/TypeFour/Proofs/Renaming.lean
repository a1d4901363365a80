import TypeFour.Proofs.Mapping

/-!
# `TypeFour.Proofs.Renaming` — the numbers of braces do not matter

A procedure carries the number of its opening brace, and two procedures are the same value when they carry
the same number. Only that can be seen of the numbers: if all of them are changed by an injective function,
in procedures and in the blocks inside them, then everything goes as before, up to the same change.

## Contents
- `Instruction.rename`, `Procedure.rename`, `Value.rename`, `Stack.rename`, `Run.rename`.
- `Simulation.renaming` — renamed stacks are related.
- `replay_rename` — replaying renamed instructions on a renamed stack.
-/

namespace TypeFour

/-! ## Renaming -/

mutual

/-- The instruction with every brace numbered anew. -/
def Instruction.rename (f : Nat → Nat) : Instruction → Instruction
  | .number x => .number x
  | .boolean b => .boolean b
  | .block origin body => .block (f origin) (renameAll f body)
  | .operator op => .operator op

/-- Instructions with every brace numbered anew. -/
def renameAll (f : Nat → Nat) : List Instruction → List Instruction
  | [] => []
  | i :: is => i.rename f :: renameAll f is

end

/-- The procedure with every brace numbered anew. -/
def Procedure.rename (f : Nat → Nat) (p : Procedure) : Procedure where
  origin := f p.origin
  body := renameAll f p.body

/-- The value with every brace numbered anew. -/
def Value.rename (f : Nat → Nat) : Value → Value
  | .number x => .number x
  | .boolean b => .boolean b
  | .procedure p => .procedure (p.rename f)

/-- The stack with every brace numbered anew. -/
def Stack.rename (f : Nat → Nat) (s : Stack) : Stack :=
  { s with items := s.items.map (Value.rename f) }

/-- The run with every brace on the stack that it leaves numbered anew. -/
def Run.rename (f : Nat → Nat) (r : Run) : Run :=
  r.map fun
    | .ok _ s => .ok () (s.rename f)
    | .error fault s => .error fault (s.rename f)

/-! ## Renamed stacks are related -/

variable {f : Nat → Nat}

/-- Renaming by an injective function, as a relation that the primitive actions keep. -/
def Simulation.renaming (f : Nat → Nat) (hf : f.Injective) (limit : Option Nat) : Simulation :=
  .pointwise (fun p q => q = p.rename f) limit (by
    rintro p _ q _ rfl rfl
    exact hf.eq_iff.symm)

theorem Instruction.related_rename (i : Instruction) :
    InstructionRelated (fun p q => q = p.rename f) i (i.rename f) := by
  cases i with
  | number x => exact .number x
  | boolean b => exact .boolean b
  | operator op => exact .operator op
  | block origin body => exact .block rfl

theorem renameAll_related (is : List Instruction) :
    List.Forall₂ (InstructionRelated fun p q => q = p.rename f) is (renameAll f is) := by
  induction is with
  | nil => exact .nil
  | cons i is ih => exact .cons i.related_rename ih

theorem Value.rename_eq (f : Nat → Nat) : Value.rename f = Value.mapProcedures (Procedure.rename f) := by
  funext v
  cases v <;> rfl

theorem Stack.rename_eq (f : Nat → Nat) (s : Stack) : s.rename f = s.mapProcedures (Procedure.rename f) := by
  rw [rename, mapProcedures, Value.rename_eq]

/-- A stack without procedures has nothing to rename. -/
theorem Stack.rename_of_all {s : Stack} {limit : Option Nat} (h : s.All (fun _ => False) limit) :
    s.rename f = s := by
  rw [rename_eq, mapProcedures_of_all h]

/-! ## Renamed runs -/

/-- **Replaying does not see the numbers of braces**, if different ones stay different. -/
theorem replay_rename (hf : f.Injective) (e : Elementary) (n : Nat) (is : List Instruction)
    (s : Stack) : replay e n (renameAll f is) (s.rename f) = (replay e n is s).rename f := by
  -- renamed procedures have renamed instructions
  have hbody (p q : Procedure) (h : (Simulation.renaming f hf s.limit).procedures p q) :
      List.Forall₂ (InstructionRelated fun p q => q = p.rename f) p.body q.body := by
    obtain rfl : q = p.rename f := h
    exact renameAll_related p.body
  have hstack : (Simulation.renaming f hf s.limit).relates s (s.rename f) :=
    Stack.pointwise_map.mpr ⟨rfl, s.rename_eq f⟩
  have hagree := (Simulation.renaming f hf s.limit).replay_agree hbody e n is (renameAll f is)
    (renameAll_related is) s (s.rename f) hstack
  refine hagree.eq_onStack (fun t u htu => ?_) fun _ _ h => h.elim
  rw [(Stack.pointwise_map.mp htu).2, t.rename_eq]

end TypeFour
