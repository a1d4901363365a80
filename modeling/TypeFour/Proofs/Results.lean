import TypeFour.Proofs.EverySource
import TypeFour.Proofs.Operands

/-!
# `TypeFour.Proofs.Results` — results that are no finite numbers

Infinities and not-a-number come in with the inputs, which are pushed unchecked, and they come up in
computations. An operator that computes a number pushes none of them: it fails with `undefinedResult`, or
before that with `rangeCheck` where an operand is out of range. The exception is `sqrt`, which checks that its
operand is not negative and pushes what it has computed: of an infinity that is an infinity.

## Contents
- `Refused` — failures on account of what is computed; `Refused.unary`, … — the shapes of operators.
- `execute_computation` — results are finite, and what is not is refused.
- `execute_computation_infiniteProduct` — a product; `not_finite_rootOfInfinity` — a root.
-/

namespace TypeFour

/-! ## What is refused -/

/-- A failure on account of the number computed, or of an operand that it cannot be computed from. -/
def Refused (r : EStateM.Result Fault Stack Unit) : Prop :=
  ∃ f t, r = .error f t ∧ (f = .undefinedResult ∨ f = .rangeCheck)

namespace Refused

variable {s : Stack} {items : List Value} {limit : Option Nat} {x y : Float}

theorem pushResult (hy : y.isFinite = false) : Refused (Behaviour.pushResult y s) := by
  have hthrow : Behaviour.pushResult y = throw .undefinedResult := by
    rw [Behaviour.pushResult, hy]
    rfl
  rw [hthrow]
  exact ⟨_, s, rfl, .inl rfl⟩

/-- A fault in place of the rest. -/
theorem guarded {c : Prop} [Decidable c] {f : Fault} (hf : f = .undefinedResult ∨ f = .rangeCheck)
    {rest : Action Unit} (h : ¬c → Refused (rest s)) :
    Refused ((if c then (do throw f; rest) else rest) s) := by
  by_cases hc : c
  · rw [if_pos hc]
    exact ⟨f, s, rfl, hf⟩
  · rw [if_neg hc]
    exact h hc

section

variable {f : Float → Float}

theorem unary (h : (f x).isFinite = false) : Refused (Behaviour.unary f ⟨.number x :: items, limit⟩) :=
  pushResult h

theorem logarithm (h : (f x).isFinite = false) : Refused (Behaviour.logarithm f ⟨.number x :: items, limit⟩) :=
  guarded (.inr rfl) fun _ => pushResult h

end

section

variable {f : Float → Float → Float} (h : (f x y).isFinite = false)

include h

theorem binary : Refused (Behaviour.binary f ⟨.number y :: .number x :: items, limit⟩) :=
  pushResult h

theorem quotient : Refused (Behaviour.quotient f ⟨.number y :: .number x :: items, limit⟩) :=
  guarded (.inl rfl) fun _ => pushResult h

end

theorem arctangent {atan2 : Float → Float → Float}
    (h : (Behaviour.withinTurn (Behaviour.degrees (atan2 x y))).isFinite = false) :
    Refused (Behaviour.arctangent atan2 ⟨.number y :: .number x :: items, limit⟩) :=
  guarded (.inl rfl) fun _ => pushResult h

end Refused

/-! ## Operators -/

variable {e : Elementary} {op : Operator} {s : Stack}

theorem Computation.Gives.of_one {f : Float → Float} {y : Float} (h : Gives (.fromOne f) (s.items.take 1) y) :
    ∃ x items, s = ⟨.number x :: items, s.limit⟩ ∧ y = f x := by
  obtain ⟨items, limit⟩ := s
  cases items with
  | nil => cases h
  | cons v vs =>
    cases h
    exact ⟨_, vs, rfl, rfl⟩

theorem Computation.Gives.of_two {f : Float → Float → Float} {z : Float}
    (h : Gives (.fromTwo f) (s.items.take 2) z) :
    ∃ x y items, s = ⟨.number y :: .number x :: items, s.limit⟩ ∧ z = f x y := by
  obtain ⟨items, limit⟩ := s
  match items with
  | [] | [_] => cases h
  | v :: w :: vs =>
    cases h
    exact ⟨_, _, vs, rfl, rfl⟩

/-- The operand of a square root, if it is a number, is finite or negative. -/
def RootIsFinite (op : Operator) (vs : List Value) : Prop :=
  op = .sqrt → ∀ x, vs.head? = some (.number x) → x.isFinite = true ∨ x < 0

theorem RootIsFinite.take {vs : List Value} (h : RootIsFinite op vs) (n : Nat) :
    RootIsFinite op (vs.take n) := by
  intro hop x hx
  rw [List.head?_take] at hx
  split at hx
  · cases hx
  · exact h hop x hx

/-- **A result that is not finite** is refused. -/
theorem refused_of_gives (he : e.RootsFinite) {c : Computation} (h : op.computation? e = some c)
    (hroot : RootIsFinite op s.items) {act : Action Unit} (hb : op.behaviour e = .plain act) {y : Float}
    (hgives : c.Gives (s.items.take c.arity) y) (hy : y.isFinite = false) : Refused (act s) := by
  cases op with
  | abs | ceiling | cos | cvi | cvr | floor | neg | round | sin | truncate =>
    cases h
    cases hb
    obtain ⟨x, items, hs, rfl⟩ := hgives.of_one
    rw [hs]
    exact .unary hy
  | ln | log =>
    cases h
    cases hb
    obtain ⟨x, items, hs, rfl⟩ := hgives.of_one
    rw [hs]
    exact .logarithm hy
  | sqrt =>
    cases h
    cases hb
    obtain ⟨x, items, hs, rfl⟩ := hgives.of_one
    have hx : x.isFinite = true ∨ x < 0 := hroot rfl x (by rw [hs]; rfl)
    rw [hs]
    -- the root of a finite number that is not negative is finite
    refine Refused.guarded (.inr rfl) fun hneg => ?_
    rw [he.sqrt (hx.resolve_right hneg) hneg] at hy
    cases hy
  | add | exp | mul | sub =>
    cases h
    cases hb
    obtain ⟨x, y, items, hs, rfl⟩ := hgives.of_two
    rw [hs]
    exact .binary hy
  | div | idiv =>
    cases h
    cases hb
    obtain ⟨x, y, items, hs, rfl⟩ := hgives.of_two
    rw [hs]
    exact .quotient hy
  | atan =>
    cases h
    cases hb
    obtain ⟨x, y, items, hs, rfl⟩ := hgives.of_two
    rw [hs]
    exact .arctangent hy
  | mod =>
    cases h
    obtain ⟨x, y, items, hs, rfl⟩ := hgives.of_two
    rw [Binary64.isFinite_ofInt64] at hy
    cases hy
  | _ => cases h

/-- **What is pushed** is the number computed, and it is finite. -/
theorem trades_finite (he : e.RootsFinite) {c : Computation} (h : op.computation? e = some c) :
    ∃ act, op.behaviour e = .plain act ∧ Trades (fun vs w => RootIsFinite op vs →
      ∃ x, x.isFinite = true ∧ c.Gives vs x ∧ w = .number x) c.arity act := by
  refine trades_of_computation h (fun vs x hgives hx _ => ⟨x, hx, hgives, rfl⟩) ?_
  rintro rfl x hneg hx
  cases h
  exact ⟨e.sqrt x, he.sqrt ((hx rfl x rfl).resolve_right hneg) hneg, .fromOne, rfl⟩

/-- **Operators that compute a number**, on any operands; `sqrt` on any but the infinity above all numbers and
not-a-number. After a success the number computed stands in place of the operands, and it is finite. If what is
computed from the operands is not finite, the operator fails with `undefinedResult` or `rangeCheck`. -/
theorem execute_computation (e : Elementary) (he : e.RootsFinite) (again : List Instruction → Stack → Run)
    (op : Operator) (c : Computation) (h : op.computation? e = some c) (s : Stack)
    (hroot : RootIsFinite op s.items) :
    (∀ t, execute e again op s = some (.ok () t) → ∃ x, x.isFinite = true ∧
      c.Gives (s.items.take c.arity) x ∧ t = { s with items := .number x :: s.items.drop c.arity }) ∧
    ∀ y, c.Gives (s.items.take c.arity) y → y.isFinite = false →
      ∃ f t, execute e again op s = some (.error f t) ∧ (f = .undefinedResult ∨ f = .rangeCheck) := by
  obtain ⟨act, hb, hact⟩ := trades_finite he h
  have hexecute : execute e again op s = some (act s) := by
    rw [execute, hb]
  rw [hexecute]
  constructor
  · intro t ht
    obtain ⟨w, hw, rfl⟩ := hact.ok (Option.some.inj ht)
    obtain ⟨x, hx, hgives, rfl⟩ := hw (hroot.take c.arity)
    exact ⟨x, hx, hgives, rfl⟩
  · intro y hgives hy
    obtain ⟨f, t, hr, hf⟩ := refused_of_gives he h hroot hb hgives hy
    exact ⟨f, t, by rw [hr], hf⟩

/-! ### Infinities -/

/-- The infinity above all numbers. -/
def infinity : Float :=
  .ofBits 0x7FF0000000000000

/-- A product with infinity is refused, as it is no finite number. -/
theorem execute_computation_infiniteProduct :
    infinity.isFinite = false ∧ ∃ f t,
      execute .machine (replay .machine 0) .mul ⟨[.number infinity, .number infinity], none⟩ =
          some (.error f t) ∧
        (f = .undefinedResult ∨ f = .rangeCheck) := by
  have hproduct : (infinity * infinity).isFinite = false := rfl
  obtain ⟨-, hrefused⟩ := execute_computation .machine Elementary.rootsFinite_machine (replay .machine 0) .mul
    (.fromTwo (· * ·)) rfl ⟨[.number infinity, .number infinity], none⟩ nofun
  exact ⟨rfl, hrefused _ .fromTwo hproduct⟩

/-- The text `{sqrt}`. -/
def rootText : List UInt8 :=
  [0x7B, 0x73, 0x71, 0x72, 0x74, 0x7D]

/-- The square root of infinity is pushed, and it is not finite; it is also what the program leaves on that
input. -/
theorem not_finite_rootOfInfinity :
    execute .machine (replay .machine 0) .sqrt ⟨[.number infinity], some 100⟩ =
        some (.ok () ⟨[.number (Float.sqrt infinity)], some 100⟩) ∧
      (Float.sqrt infinity).isFinite = false ∧
      evaluate .machine 0 {} (.ofBytes rootText) [infinity] =
        some (.ok ⟨[.number (Float.sqrt infinity)], some 100⟩) := by
  refine ⟨rfl, rfl, ?_⟩
  rw [evaluate_of_inputs (Source.ofBytes_delivers _).most (by decide) rfl]
  rfl

end TypeFour
