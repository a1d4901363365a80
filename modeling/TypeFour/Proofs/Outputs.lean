import TypeFour.Proofs.Clipping

/-!
# `TypeFour.Proofs.Outputs` — what a function gives back

The outputs of a function are the numbers on the stack that its program leaves, from the bottom up; with a
range only as many as the range has intervals, from the top. Every value on the stack is asked to be a
number, those beneath the outputs too, and before they are counted. So a boolean or a procedure anywhere on
the stack makes the function fail, whether it would have been an output or not.

## Contents
- `Value.IsNumber`, `mapM_toNumber_map`, `mapM_toNumber_of_exists` — a stack as numbers.
- `BoundedFunction.Leaves` — the stack that the program of a function leaves; `outputs_of_exists`,
  `outputs_of_none`, `outputs_of_some` — what the function makes of it; `evaluate_outputs` — all of it.
- `not_outputs_aboveBoolean` — a number above a boolean.
-/

namespace TypeFour

/-! ## A stack as numbers -/

/-- The value is a number. -/
def Value.IsNumber (v : Value) : Prop :=
  ∃ x, v = .number x

theorem Value.toNumber_of_not_isNumber {v : Value} (h : ¬v.IsNumber) : v.toNumber = .error .typeCheck := by
  cases v with
  | number x => exact absurd ⟨x, rfl⟩ h
  | boolean b => rfl
  | procedure p => rfl

theorem exists_map_number {vs : List Value} (h : ∀ v ∈ vs, v.IsNumber) :
    ∃ xs : List Float, vs = xs.map .number := by
  induction vs with
  | nil => exact ⟨[], rfl⟩
  | cons v vs ih =>
    obtain ⟨⟨x, rfl⟩, hvs⟩ := List.forall_mem_cons.mp h
    obtain ⟨xs, rfl⟩ := ih hvs
    exact ⟨x :: xs, rfl⟩

theorem mapM_toNumber_map (xs : List Float) : (xs.map Value.number).mapM Value.toNumber = .ok xs := by
  induction xs with
  | nil => rfl
  | cons x xs ih =>
    rw [List.map_cons, List.mapM_cons, ih]
    rfl

/-- One value that is no number is enough. -/
theorem mapM_toNumber_of_exists {vs : List Value} (h : ∃ v ∈ vs, ¬v.IsNumber) :
    vs.mapM Value.toNumber = .error .typeCheck := by
  induction vs with
  | nil => simp at h
  | cons v vs ih =>
    rw [List.mapM_cons]
    by_cases hv : v.IsNumber
    · obtain ⟨x, rfl⟩ := hv
      obtain ⟨w, hw, hnot⟩ := h
      have hmem : w ∈ vs := (List.mem_cons.mp hw).resolve_left fun heq => hnot ⟨x, heq⟩
      rw [ih ⟨w, hmem, hnot⟩]
      rfl
    · rw [Value.toNumber_of_not_isNumber hv]
      rfl

namespace BoundedFunction

variable {e : Elementary} {n : Nat} {f : BoundedFunction} {inputs : List Float} {stack : Stack}

/-! ## The outputs -/

/-- The program of the function leaves a stack, on as many inputs as the function takes. -/
structure Leaves (e : Elementary) (n : Nat) (f : BoundedFunction) (inputs : List Float) (stack : Stack) :
    Prop where
  count : inputs.length = f.inputCount
  left : TypeFour.evaluate e n f.options (.ofBytes f.program)
    (List.zipWith Interval.clip f.domain inputs) = some (.ok stack)

theorem Leaves.evaluate_eq (h : Leaves e n f inputs stack) :
    f.evaluate e n inputs = some (f.outputs stack) := by
  rw [evaluate, if_neg (not_not.mpr h.count)]
  exact congrArg (·.map (·.bind f.outputs)) h.left

theorem outputs_of_exists (h : ∃ v ∈ stack.toList, ¬v.IsNumber) :
    f.outputs stack = .error .typeCheck := by
  rw [outputs, Stack.toNumbers, mapM_toNumber_of_exists h]
  rfl

theorem outputs_of_none {xs : List Float} (h : stack.toList = xs.map .number) (hnone : f.outputCount? = none) :
    f.outputs stack = .ok xs := by
  rw [outputs, Stack.toNumbers, h, mapM_toNumber_map, hnone]
  rfl

theorem outputs_of_some {xs : List Float} {k : Nat} (h : stack.toList = xs.map .number)
    (hk : f.outputCount? = some k) :
    f.outputs stack = if xs.length < k then .error .stackUnderflow else .ok (xs.drop (xs.length - k)) := by
  rw [outputs, Stack.toNumbers, h, mapM_toNumber_map, hk]
  show (if xs.length < k then _ else _) = _
  split <;> rfl

/-- **The outputs of a function**, whatever stack its program leaves. Without a range they are the whole stack.
With a range of `k` intervals they are the `k` numbers on top, if the values beneath them are numbers too;
and with fewer values than that, all of them numbers, the function fails with `stackUnderflow`. If any value
on the stack is no number, it fails with `typeCheck`, with a range or without. -/
theorem evaluate_outputs (e : Elementary) (n : Nat) (f : BoundedFunction) (inputs : List Float)
    (stack : Stack) (h : Leaves e n f inputs stack) :
    (f.outputCount? = none → ∀ xs, stack.toList = xs.map .number → f.evaluate e n inputs = some (.ok xs)) ∧
    (∀ k, f.outputCount? = some k →
      (∀ below xs, stack.toList = below ++ xs.map .number → xs.length = k → (∀ v ∈ below, v.IsNumber) →
        f.evaluate e n inputs = some (.ok xs)) ∧
      (stack.toList.length < k → (∀ v ∈ stack.toList, v.IsNumber) →
        f.evaluate e n inputs = some (.error .stackUnderflow))) ∧
    ((∃ v ∈ stack.toList, ¬v.IsNumber) → f.evaluate e n inputs = some (.error .typeCheck)) := by
  rw [h.evaluate_eq]
  refine ⟨?_, ?_, fun hnot => congrArg some (outputs_of_exists hnot)⟩
  · intro hnone xs hxs
    rw [outputs_of_none hxs hnone]
  · intro k hk
    constructor
    · intro below xs hstack hlen hbelow
      obtain ⟨ys, rfl⟩ := exists_map_number hbelow
      rw [← List.map_append] at hstack
      have henough : ¬(ys ++ xs).length < k := by
        rw [List.length_append]
        omega
      have hdrop : (ys ++ xs).drop ((ys ++ xs).length - k) = xs := by
        rw [List.length_append, hlen, Nat.add_sub_cancel, List.drop_left]
      rw [outputs_of_some hstack hk, if_neg henough, hdrop]
    · intro hfew hall
      obtain ⟨ys, hys⟩ := exists_map_number hall
      have hlen : ys.length < k := by
        rwa [hys, List.length_map] at hfew
      rw [outputs_of_some hys hk, if_pos hlen]

/-! ### A number above a boolean -/

/-- The bytes of `{true exch}`. -/
def aboveBoolean : List UInt8 :=
  [openByte, 0x74, 0x72, 0x75, 0x65, 0x20, 0x65, 0x78, 0x63, 0x68, closeByte]

/-- The function that puts `true` beneath its input, with one output. -/
def oneAboveBoolean : BoundedFunction where
  program := aboveBoolean
  domain := [onlyOne]
  range := some [onlyOne]

/-- What its program leaves. -/
def oneOverTrue : Stack :=
  ⟨[.number one, .boolean true], some 100⟩

theorem leaves_oneAboveBoolean : Leaves .machine 0 oneAboveBoolean [one] oneOverTrue where
  count := rfl
  left := (evaluate_of_inputs (by simp [Source.ofBytes]) (by decide) rfl).trans (by rfl)

theorem exists_not_isNumber_oneOverTrue : ∃ v ∈ oneOverTrue.toList, ¬v.IsNumber :=
  ⟨.boolean true, List.mem_cons_self, fun ⟨_, h⟩ => nomatch h⟩

/-- It has a boolean on the stack, and fails. -/
theorem evaluate_outputs_aboveBoolean :
    Leaves .machine 0 oneAboveBoolean [one] oneOverTrue ∧
      oneAboveBoolean.evaluate .machine 0 [one] = some (.error .typeCheck) :=
  ⟨leaves_oneAboveBoolean, (evaluate_outputs .machine 0 oneAboveBoolean [one] _ leaves_oneAboveBoolean).2.2
    exists_not_isNumber_oneOverTrue⟩

/-- The value on top is a number nevertheless, and the only one that is asked for. -/
theorem not_outputs_aboveBoolean :
    Leaves .machine 0 oneAboveBoolean [one] oneOverTrue ∧ oneAboveBoolean.outputCount? = some 1 ∧
      oneOverTrue.toList = [.boolean true] ++ [one].map .number ∧
      oneAboveBoolean.evaluate .machine 0 [one] ≠ some (.ok [one]) := by
  refine ⟨leaves_oneAboveBoolean, rfl, rfl, fun h => ?_⟩
  rw [leaves_oneAboveBoolean.evaluate_eq, outputs_of_exists exists_not_isNumber_oneOverTrue] at h
  cases h

end BoundedFunction

end TypeFour
