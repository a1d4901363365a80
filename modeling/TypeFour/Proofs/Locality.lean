import TypeFour.Proofs.Simulation

/-!
# `TypeFour.Proofs.Locality` — what lies underneath stays

An operator works from the top of the stack. What it asks of the stack is that enough values are there; how
many more lie underneath it cannot tell, and it never touches them. So a run that never misses an operand
goes in the same way when its stack is put on top of other values and the limit is raised by their number:
the same values come and go above them, and a fault stops it at the same place.

## Contents
- `Stack.above` — a stack on top of other values.
- `KeepsBelow` — an action that comes to the same there; the six primitive actions are such.
- `Simulation.above`, `replay_above` — so are all operators, and replays.
-/

namespace TypeFour

/-- The stack on top of other values, which are given from the bottom up. There is room for as many more
values as before. -/
def Stack.above (below : List Value) (s : Stack) : Stack where
  items := s.items ++ below.reverse
  limit := s.limit.map fun m => m + below.length

variable {below : List Value}

namespace Stack

theorem size_above (s : Stack) : (s.above below).size = s.size + below.length := by
  simp [size, above]

theorem hasRoom_above (s : Stack) (n : Nat) : (s.above below).hasRoom n = s.hasRoom n := by
  unfold hasRoom
  rw [size_above]
  cases hs : s.limit with
  | none => simp [above, hs]
  | some m =>
    have hlimit : (s.above below).limit = some (m + below.length) := by simp [above, hs]
    simp only [hlimit]
    congr 1
    exact propext (by omega)

end Stack

/-! ## The primitive actions -/

/-- The action comes to the same above other values, and leaves them where they are. Nothing is said of a
stack on which it misses an operand. -/
abbrev KeepsBelow {α : Type} (below : List Value) (m : Action α) : Prop :=
  Simulates (fun s t => t = s.above below) (· = .stackUnderflow) Eq m m

namespace KeepsBelow

theorem push (v : Value) : KeepsBelow below (Stack.push v) := by
  rintro s _ rfl
  unfold Stack.push
  rw [Stack.hasRoom_above]
  by_cases hr : s.hasRoom 1 = true
  · rw [if_pos hr, if_pos hr]
    exact .ok rfl rfl
  · rw [if_neg hr, if_neg hr]
    exact .error rfl

theorem pop : KeepsBelow below Stack.pop := by
  rintro ⟨items, limit⟩ _ rfl
  cases items with
  | nil => exact .excused rfl
  | cons v vs => exact .ok rfl rfl

theorem peek (n : Nat) : KeepsBelow below (Stack.peek n) := by
  rintro s _ rfl
  unfold Stack.peek
  by_cases hn : n < s.items.length
  · have hitem : (s.above below).items[n]? = some s.items[n] := by
      rw [Stack.above, List.getElem?_append_left hn, List.getElem?_eq_getElem hn]
    rw [hitem, List.getElem?_eq_getElem hn]
    exact .ok rfl rfl
  · rw [List.getElem?_eq_none (Nat.le_of_not_lt hn)]
    exact .excused rfl

theorem exch : KeepsBelow below Stack.exch := by
  rintro ⟨items, limit⟩ _ rfl
  match items with
  | [] | [_] => exact .excused rfl
  | a :: b :: rest => exact .ok rfl rfl

theorem copy (n : Nat) : KeepsBelow below (Stack.copy n) := by
  rintro s _ rfl
  unfold Stack.copy
  by_cases hn : s.size < n
  · rw [if_pos hn]
    exact .excused rfl
  have hle : n ≤ s.items.length := Nat.le_of_not_lt hn
  have hn' : ¬(s.above below).size < n := by
    rw [Stack.size_above]
    omega
  rw [if_neg hn, if_neg hn', Stack.hasRoom_above]
  by_cases hr : s.hasRoom n = true
  · rw [if_pos hr, if_pos hr]
    refine .ok rfl ?_
    simp [Stack.above, List.take_append_of_le_length hle]
  · rw [if_neg hr, if_neg hr]
    exact .error rfl

theorem roll (n : Nat) (j : Int) : KeepsBelow below (Stack.roll n j) := by
  rintro s _ rfl
  unfold Stack.roll
  by_cases hn : s.size < n
  · rw [if_pos hn]
    exact .excused rfl
  · -- the window is within the stack, and the places in it are counted from the top
    have hle : n ≤ s.items.length := Nat.le_of_not_lt hn
    have hn' : ¬(s.above below).size < n := by
      rw [Stack.size_above]
      omega
    rw [if_neg hn, if_neg hn']
    refine .ok rfl ?_
    simp [Stack.above, List.take_append_of_le_length hle, List.drop_append_of_le_length hle]

end KeepsBelow

/-! ## Operators and replays -/

theorem related_eq_iff {v w : Value} : Related Eq v w ↔ v = w := by
  constructor
  · intro h
    cases h with
    | number n => rfl
    | boolean b => rfl
    | procedure hp => rw [hp]
  · rintro rfl
    cases v with
    | number n => exact .number n
    | boolean b => exact .boolean b
    | procedure p => exact .procedure rfl

/-- Put on top of other values, as a relation that the primitive actions keep. -/
def Simulation.above (below : List Value) : Simulation where
  relates s t := t = s.above below
  procedures := Eq
  excused := (· = .stackUnderflow)
  origin_iff := by
    rintro p _ q _ rfl rfl
    exact Iff.rfl
  push := by
    intro v w hv
    obtain rfl := related_eq_iff.mp hv
    exact KeepsBelow.push v
  pop := KeepsBelow.pop.imp fun _ _ => related_eq_iff.mpr
  peek n := (KeepsBelow.peek n).imp fun _ _ => related_eq_iff.mpr
  exch := KeepsBelow.exch
  copy := KeepsBelow.copy
  roll := KeepsBelow.roll

theorem InstructionRelated.rfl {i : Instruction} : InstructionRelated Eq i i := by
  cases i with
  | number n => exact .number n
  | boolean b => exact .boolean b
  | operator op => exact .operator op
  | block origin body => exact .block (Eq.refl _)

theorem InstructionRelated.eq {i i' : Instruction} (h : InstructionRelated Eq i i') : i = i' := by
  cases h with
  | number n => rfl
  | boolean b => rfl
  | operator op => rfl
  | block hp =>
    cases hp
    rfl

/-- **Locality.** Replaying a procedure on top of other values, with the limit raised by their number, comes
to what it comes to without them: the same end or the same fault, and they lie under what it leaves. The
one exception is a replay that misses an operand without them. -/
theorem replay_above (e : Elementary) (n : Nat) (p : Procedure) (below : List Value) (s : Stack)
    (h : ∀ t, replay e n p.body s ≠ some (.error .stackUnderflow t)) :
    replay e n p.body (s.above below) = (replay e n p.body s).onStack (Stack.above below) := by
  have hbodies (q q' : Procedure) (hq : q = q') :
      List.Forall₂ (InstructionRelated Eq) q.body q'.body := by
    rw [hq]
    exact List.forall₂_same.mpr fun _ _ => .rfl
  have hagree := (Simulation.above below).replay_agree hbodies e n _ _ (hbodies p p rfl) s _ rfl
  refine hagree.eq_onStack (fun _ _ hst => hst) ?_
  rintro _ t rfl
  exact h t

/-! ### A push that fails -/

/-- `{exch} if 2 copy true`. -/
def exchangeThenCopy : Procedure :=
  ⟨3, [.block 4 [.operator .exch], .operator .ifTrue, .number 2, .operator .copy, .boolean true]⟩

/-- Three operands, with room for one value more. -/
def threeOperands : Stack :=
  ⟨[.boolean true, .boolean false, .procedure ⟨7, []⟩], some 4⟩

/-- The last push fails with four values on the stack, and with two values underneath it does so with six. -/
theorem replay_above_exchangeThenCopy :
    (∀ t, replay .machine 2 exchangeThenCopy.body threeOperands ≠ some (.error .stackUnderflow t)) ∧
      replay .machine 2 exchangeThenCopy.body (threeOperands.above [.boolean true, .procedure ⟨8, []⟩]) =
        some (.error .stackOverflow
          ⟨[.procedure ⟨7, []⟩, .boolean false, .procedure ⟨7, []⟩, .boolean false, .procedure ⟨8, []⟩,
            .boolean true], some 6⟩) := by
  have halone : replay .machine 2 exchangeThenCopy.body threeOperands =
      some (.error .stackOverflow
        ⟨[.procedure ⟨7, []⟩, .boolean false, .procedure ⟨7, []⟩, .boolean false], some 4⟩) := rfl
  have hoperands (t : Stack) :
      replay .machine 2 exchangeThenCopy.body threeOperands ≠ some (.error .stackUnderflow t) :=
    fun ht => nomatch halone.symm.trans ht
  exact ⟨hoperands, (replay_above .machine 2 exchangeThenCopy _ threeOperands hoperands).trans rfl⟩

end TypeFour
