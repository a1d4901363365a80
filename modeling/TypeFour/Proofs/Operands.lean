import TypeFour.Proofs.Actions
import TypeFour.Proofs.FloatRange

/-!
# `TypeFour.Proofs.Operands` — what operators take and what they give

An operator that computes takes one or two values off the stack, one after the other, and pushes one; or it
fails before it pushes. Nothing else on the stack is touched. This is said once (`Trades`), with a relation
between the values taken and the value pushed, and shown for every operator that computes a number or a truth.
What a success leaves, what a failure leaves, and that there is always room for the result, follow from it for
all of them alike.

The operators that compute numbers are listed with what they compute (`Operator.computation?`), apart from
whether it is refused. The other operators compute nothing: they take values off, move them about or push
copies of them, so that every value they leave was there before (`Arranges`).

## Contents
- `Action.left` — the stack that an action leaves, by a success or by a fault.
- `Trades` — values taken, one value pushed; `Trades.ok`, `Trades.error`, `Trades.ne_stackOverflow`.
- `Trades.unary`, `Trades.binary`, … — the shapes of operators.
- `Computation`, `Operator.computation?`, `trades_of_computation` — operators that compute numbers.
- `Elementary.RootsFinite` — what is asked of the square root, the one result that is not checked.
- `Operator.isTest`, `trades_of_isTest` — operators on truths and on bits.
- `Arranges`, `Arranges.left`, `Composed.arranges` — every value that is left was there.
- `arranges_of_isCopying`, `arranges_of_isMoving`, `arranges_of_choosing` — operators that compute nothing.
- `Operator.sorts`, `plain_cases` — there are no others.
-/

namespace TypeFour

/-! ## The stack that is left -/

namespace Action

variable {α β : Type} {act : Action α} {s t : Stack}

/-- The stack that the action leaves, whether it succeeds or fails. -/
def left (act : Action α) (s : Stack) : Stack :=
  match act s with
  | .ok _ t => t
  | .error _ t => t

theorem left_of_ok {a : α} (h : act s = .ok a t) : act.left s = t := by
  rw [left, h]

theorem left_of_error {f : Fault} (h : act s = .error f t) : act.left s = t := by
  rw [left, h]

/-- Of two actions in a row, the second goes on with what the first leaves, if that succeeds. -/
theorem left_bind (m : Action α) (k : α → Action β) (s : Stack) :
    (m >>= k).left s = match m s with
      | .ok a t => (k a).left t
      | .error _ t => t := by
  show left (EStateM.bind m k) s = _
  unfold left EStateM.bind
  cases m s <;> rfl

end Action

theorem Stack.hasRoom_iff {s : Stack} {n : Nat} :
    s.hasRoom n = true ↔ ∀ m, s.limit = some m → s.size + n ≤ m := by
  unfold hasRoom
  cases s.limit with
  | none => simp
  | some m => simp

/-- With fewer values there is room for more. -/
theorem Stack.hasRoom_of_le {items items' : List Value} {limit : Option Nat} {n k : Nat}
    (h : hasRoom ⟨items, limit⟩ n = true) (hle : items'.length + k ≤ items.length + n) :
    hasRoom ⟨items', limit⟩ k = true := by
  refine hasRoom_iff.mpr fun m hm => ?_
  exact Nat.le_trans hle (hasRoom_iff.mp h m hm)

theorem Stack.push_of_hasRoom {items : List Value} {limit : Option Nat} {k : Nat}
    (hroom : hasRoom ⟨items, limit⟩ k = true) (hk : 0 < k) (v : Value) :
    push v ⟨items, limit⟩ = .ok () ⟨v :: items, limit⟩ :=
  if_pos (hasRoom_of_le hroom (Nat.add_le_add_left hk _))

/-! ## One value in place of others -/

/-- The action takes `n` values off, one after the other, and then pushes one that `R` relates to them, the
top one first; or it fails before that, and not because the stack is full. -/
inductive Trades : (R : List Value → Value → Prop) → Nat → Action Unit → Prop where
  | push {R : List Value → Value → Prop} {w : Value} : R [] w → Trades R 0 (Stack.push w)
  | fail {R : List Value → Value → Prop} {n : Nat} {f : Fault} : f ≠ .stackOverflow → Trades R n (throw f)
  | take {R : List Value → Value → Prop} {n : Nat} {k : Value → Action Unit} :
      (∀ v, Trades (fun vs w => R (v :: vs) w) n (k v)) → Trades R (n + 1) (Stack.pop >>= k)

namespace Trades

variable {R : List Value → Value → Prop} {n : Nat}

section

variable {act : Action Unit} {s t : Stack}

/-- **After a success** a value stands in place of those that were taken. -/
theorem ok (h : Trades R n act) (hr : act s = .ok () t) :
    ∃ w, R (s.items.take n) w ∧ t = { s with items := w :: s.items.drop n } := by
  induction h generalizing s with
  | @push R w hw =>
    unfold Stack.push at hr
    split at hr
    · cases hr
      exact ⟨w, hw, rfl⟩
    · cases hr
  | fail _ => cases hr
  | @take R n k _ ih =>
    obtain ⟨items, limit⟩ := s
    cases items with
    | nil => cases hr
    | cons v vs => exact ih v (s := ⟨vs, limit⟩) hr

/-- **After a failure** some of these values are gone, and nothing else has changed. -/
theorem error {f : Fault} (h : Trades R n act) (hr : act s = .error f t) :
    ∃ k ≤ n, t = { s with items := s.items.drop k } := by
  induction h generalizing s with
  | push _ =>
    unfold Stack.push at hr
    split at hr
    · cases hr
    · cases hr
      exact ⟨0, Nat.le_refl 0, rfl⟩
  | fail _ =>
    cases hr
    exact ⟨0, Nat.zero_le _, rfl⟩
  | @take R n k _ ih =>
    obtain ⟨items, limit⟩ := s
    cases items with
    | nil =>
      cases hr
      exact ⟨0, Nat.zero_le _, rfl⟩
    | cons v vs =>
      obtain ⟨j, hj, ht⟩ := ih v (s := ⟨vs, limit⟩) hr
      exact ⟨j + 1, Nat.succ_le_succ hj, ht⟩

/-- **There is room for the result** where a value was taken, if the stack was within its limit. -/
theorem ne_stackOverflow {f : Fault} (h : Trades R n act) (hroom : s.hasRoom (1 - n) = true)
    (hr : act s = .error f t) : f ≠ .stackOverflow := by
  induction h generalizing s with
  | push _ =>
    unfold Stack.push at hr
    rw [if_pos hroom] at hr
    cases hr
  | fail hf =>
    cases hr
    exact hf
  | @take R n k _ ih =>
    obtain ⟨items, limit⟩ := s
    cases items with
    | nil =>
      cases hr
      nofun
    | cons v vs =>
      have hless : Stack.hasRoom ⟨vs, limit⟩ (1 - n) = true := by
        refine Stack.hasRoom_iff.mpr fun m hm => ?_
        have hle : vs.length + 1 + (1 - (n + 1)) ≤ m := Stack.hasRoom_iff.mp hroom m hm
        show vs.length + (1 - n) ≤ m
        omega
      exact ih v (s := ⟨vs, limit⟩) hless hr

end

/-! ### Operands -/

theorem popNumber {k : Float → Action Unit} (h : ∀ x, Trades (fun vs w => R (.number x :: vs) w) n (k x)) :
    Trades R (n + 1) (Stack.popNumber >>= k) := by
  rw [Stack.popNumber, bind_assoc]
  refine .take fun v => ?_
  cases v with
  | number x => exact h x
  | boolean b => exact .fail nofun
  | procedure p => exact .fail nofun

theorem popBoolean {k : Bool → Action Unit} (h : ∀ b, Trades (fun vs w => R (.boolean b :: vs) w) n (k b)) :
    Trades R (n + 1) (Stack.popBoolean >>= k) := by
  rw [Stack.popBoolean, bind_assoc]
  refine .take fun v => ?_
  cases v with
  | number x => exact .fail nofun
  | boolean b => exact h b
  | procedure p => exact .fail nofun

theorem popInteger {k : Int64 → Action Unit}
    (h : ∀ x, Trades (fun vs w => R (.number x :: vs) w) n (k (Binary64.toInt64 x))) :
    Trades R (n + 1) (Stack.popInteger >>= k) := by
  rw [Stack.popInteger, bind_assoc]
  exact popNumber h

/-- A fault in place of the rest. -/
theorem guarded {c : Prop} [Decidable c] {f : Fault} (hf : f ≠ .stackOverflow) {rest : Action Unit}
    (h : ¬c → Trades R n rest) : Trades R n (if c then (do throw f; rest) else rest) := by
  by_cases hc : c
  · rw [if_pos hc]
    exact .fail hf
  · rw [if_neg hc]
    exact h hc

/-! ### Operators, by shape -/

theorem pushResult {y : Float} (h : y.isFinite = true → R [] (.number y)) :
    Trades R 0 (Behaviour.pushResult y) := by
  unfold Behaviour.pushResult
  by_cases hy : y.isFinite = true
  · rw [if_pos hy]
    exact .push (h hy)
  · rw [if_neg hy]
    exact .fail nofun

theorem unary {f : Float → Float} (h : ∀ x, (f x).isFinite = true → R [.number x] (.number (f x))) :
    Trades R 1 (Behaviour.unary f) :=
  popNumber fun x => pushResult (h x)

theorem logarithm {log : Float → Float} (h : ∀ x, (log x).isFinite = true → R [.number x] (.number (log x))) :
    Trades R 1 (Behaviour.logarithm log) :=
  popNumber fun x => guarded (by decide) fun _ => pushResult (h x)

theorem squareRoot {sqrt : Float → Float} (h : ∀ x, ¬x < 0 → R [.number x] (.number (sqrt x))) :
    Trades R 1 (Behaviour.squareRoot sqrt) :=
  popNumber fun x => guarded (by decide) fun hneg => .push (h x hneg)

section

variable {f : Float → Float → Float}
  (h : ∀ x y, (f x y).isFinite = true → R [.number y, .number x] (.number (f x y)))

include h

theorem binary : Trades R 2 (Behaviour.binary f) :=
  popNumber fun y => popNumber fun x => pushResult (h x y)

theorem quotient : Trades R 2 (Behaviour.quotient f) :=
  popNumber fun y => popNumber fun x => guarded (by decide) fun _ => pushResult (h x y)

end

theorem arctangent {atan2 : Float → Float → Float}
    (h : ∀ num den, (Behaviour.withinTurn (Behaviour.degrees (atan2 num den))).isFinite = true →
      R [.number den, .number num] (.number (Behaviour.withinTurn (Behaviour.degrees (atan2 num den))))) :
    Trades R 2 (Behaviour.arctangent atan2) :=
  popNumber fun den => popNumber fun num => guarded (by decide) fun _ => pushResult (h num den)

theorem modulo
    (h : ∀ x y, R [.number y, .number x]
      (.number (Binary64.ofInt64 (Binary64.toInt64 x % Binary64.toInt64 y)))) :
    Trades R 2 Behaviour.modulo :=
  popInteger fun y => popInteger fun x => guarded (by decide) fun _ => .push (h x y)

section

variable (hinteger : ∀ vs i, R vs (.number (Binary64.ofInt64 i))) (hboolean : ∀ vs b, R vs (.boolean b))

include hinteger

theorem shift : Trades R 2 Behaviour.shift :=
  popInteger fun _ => popInteger fun _ => guarded (by decide) fun _ => .push (hinteger _ _)

include hboolean

theorem logical (onBooleans : Bool → Bool → Bool) (onIntegers : Int64 → Int64 → Int64) :
    Trades R 2 (Behaviour.logical onBooleans onIntegers) := by
  refine .take fun v => ?_
  cases v with
  | number x => exact popInteger fun _ => .push (hinteger _ _)
  | boolean b => exact popBoolean fun _ => .push (hboolean _ _)
  | procedure p => exact .fail nofun

theorem negation : Trades R 1 Behaviour.negation := by
  refine .take fun v => ?_
  cases v with
  | number x => exact .push (hinteger _ _)
  | boolean b => exact .push (hboolean _ _)
  | procedure p => exact .fail nofun

omit hinteger

theorem comparison (r : Float → Float → Bool) : Trades R 2 (Behaviour.comparison r) :=
  popNumber fun _ => popNumber fun _ => .push (hboolean _ _)

theorem equality (negated : Bool) : Trades R 2 (Behaviour.equality negated) :=
  .take fun _ => .take fun _ => .push (hboolean _ _)

end

end Trades

/-! ## Operators that compute a number -/

/-- What is computed from one number or from two, the lower one first. -/
inductive Computation where
  | fromOne (f : Float → Float)
  | fromTwo (f : Float → Float → Float)

/-- How many numbers it takes. -/
def Computation.arity : Computation → Nat
  | fromOne _ => 1
  | fromTwo _ => 2

/-- The number computed from operands, the top one first. -/
inductive Computation.Gives : Computation → List Value → Float → Prop where
  | fromOne {f : Float → Float} {x : Float} : Gives (.fromOne f) [.number x] (f x)
  | fromTwo {f : Float → Float → Float} {x y : Float} : Gives (.fromTwo f) [.number y, .number x] (f x y)

/-- What an operator computes, if it computes a number. Whether its operands are admitted, and the result, is
another matter. -/
def Operator.computation? (e : Elementary) : Operator → Option Computation
  | abs => some (.fromOne Float.abs)
  | add => some (.fromTwo (· + ·))
  | atan => some (.fromTwo fun num den => Behaviour.withinTurn (Behaviour.degrees (e.atan2 num den)))
  | ceiling => some (.fromOne Binary64.ceiling)
  | cos => some (.fromOne fun x => e.cos (Behaviour.radians x))
  | cvi => some (.fromOne Binary64.truncate)
  | cvr => some (.fromOne id)
  | div => some (.fromTwo (· / ·))
  | exp => some (.fromTwo e.pow)
  | floor => some (.fromOne Binary64.floor)
  | idiv => some (.fromTwo fun m n => Binary64.truncate (m / n))
  | ln => some (.fromOne e.ln)
  | log => some (.fromOne e.log10)
  | mod => some (.fromTwo fun m n => Binary64.ofInt64 (Binary64.toInt64 m % Binary64.toInt64 n))
  | mul => some (.fromTwo (· * ·))
  | neg => some (.fromOne (- ·))
  | round => some (.fromOne Binary64.roundHalfUp)
  | sin => some (.fromOne fun x => e.sin (Behaviour.radians x))
  | sqrt => some (.fromOne e.sqrt)
  | sub => some (.fromTwo (· - ·))
  | truncate => some (.fromOne Binary64.truncate)
  | _ => none

/-- A finite number that is not negative has a finite square root. -/
def Elementary.RootsFinite (e : Elementary) : Prop :=
  ∀ x : Float, x.isFinite = true → 0 ≤ x → (e.sqrt x).isFinite = true

theorem Elementary.RootsFinite.sqrt {e : Elementary} (he : e.RootsFinite) {x : Float} (hx : x.isFinite = true)
    (hneg : ¬x < 0) : (e.sqrt x).isFinite = true :=
  he x hx (Binary64.le_of_not_lt (Binary64.isNaN_of_isFinite hx) rfl hneg)

/-- The machine computes such roots. -/
theorem Elementary.rootsFinite_machine : Elementary.machine.RootsFinite :=
  fun _ hx hle => Binary64.isFinite_sqrt hx (Binary64.not_lt_of_le hle)

/-- The operator compares, or works on truths or bits. -/
def Operator.isTest : Operator → Bool
  | and | bitshift | eq | ge | gt | le | lt | ne | not | or | xor => true
  | _ => false

section

variable {e : Elementary} {op : Operator} {R : List Value → Value → Prop}

/-- **An operator that computes a number** trades its operands for that number, which is finite. The square
root is pushed as it comes. -/
theorem trades_of_computation {c : Computation} (h : op.computation? e = some c)
    (hfinite : ∀ vs x, c.Gives vs x → x.isFinite = true → R vs (.number x))
    (hroot : op = .sqrt → ∀ x, ¬x < 0 → R [.number x] (.number (e.sqrt x))) :
    ∃ act, op.behaviour e = .plain act ∧ Trades R c.arity act := by
  cases op with
  | abs | ceiling | cos | cvi | cvr | floor | neg | round | sin | truncate =>
    cases h
    exact ⟨_, rfl, .unary fun _ => hfinite _ _ .fromOne⟩
  | add | exp | mul | sub =>
    cases h
    exact ⟨_, rfl, .binary fun _ _ => hfinite _ _ .fromTwo⟩
  | div | idiv =>
    cases h
    exact ⟨_, rfl, .quotient fun _ _ => hfinite _ _ .fromTwo⟩
  | ln | log =>
    cases h
    exact ⟨_, rfl, .logarithm fun _ => hfinite _ _ .fromOne⟩
  | atan =>
    cases h
    exact ⟨_, rfl, .arctangent fun _ _ => hfinite _ _ .fromTwo⟩
  | mod =>
    cases h
    exact ⟨_, rfl, .modulo fun _ _ => hfinite _ _ .fromTwo (Binary64.isFinite_ofInt64 _)⟩
  | sqrt =>
    cases h
    exact ⟨_, rfl, .squareRoot (hroot rfl)⟩
  | _ => cases h

/-- **An operator on truths or bits** trades one or two values for a truth or for an integer. -/
theorem trades_of_isTest (h : op.isTest = true) (hfinite : ∀ vs x, x.isFinite = true → R vs (.number x))
    (hboolean : ∀ vs b, R vs (.boolean b)) :
    ∃ act, ∃ k ≤ 1, op.behaviour e = .plain act ∧ Trades R (k + 1) act := by
  have hinteger (vs : List Value) (i : Int64) : R vs (.number (Binary64.ofInt64 i)) :=
    hfinite vs _ (Binary64.isFinite_ofInt64 i)
  cases op with
  | and | or | xor => exact ⟨_, 1, Nat.le_refl 1, rfl, .logical hinteger hboolean _ _⟩
  | eq | ne => exact ⟨_, 1, Nat.le_refl 1, rfl, .equality hboolean _⟩
  | ge | gt | le | lt => exact ⟨_, 1, Nat.le_refl 1, rfl, .comparison hboolean _⟩
  | bitshift => exact ⟨_, 1, Nat.le_refl 1, rfl, .shift hinteger⟩
  | not => exact ⟨_, 0, Nat.zero_le 1, rfl, .negation hinteger hboolean⟩
  | _ => cases h

end

/-! ## Operators that compute nothing -/

/-- The result of an action that leaves no value that was not there, and that fails because the stack is full
only if it pushes. -/
inductive Arranged {α : Type} (pushes : Prop) (s : Stack) : EStateM.Result Fault Stack α → Prop where
  | ok {a : α} {t : Stack} : t.items ⊆ s.items → Arranged pushes s (.ok a t)
  | error {f : Fault} {t : Stack} :
      t.items ⊆ s.items → (f = .stackOverflow → pushes) → Arranged pushes s (.error f t)

/-- The action takes values off, moves them about or, if it `pushes`, pushes copies of them. -/
def Arranges {α : Type} (pushes : Prop) (act : Action α) : Prop :=
  ∀ s, Arranged pushes s (act s)

namespace Arranges

variable {α β : Type} {pushes : Prop}

/-- Every value that is left was there. -/
theorem left {act : Action α} (h : Arranges pushes act) (s : Stack) : (act.left s).items ⊆ s.items := by
  have hs := h s
  unfold Action.left
  generalize act s = r at hs ⊢
  cases hs with
  | ok hsub => exact hsub
  | error hsub _ => exact hsub

/-- Without a push there is no overflow. -/
theorem ne_stackOverflow {act : Action α} {s t : Stack} {f : Fault} (h : Arranges False act)
    (hr : act s = .error f t) : f ≠ .stackOverflow := by
  have hs := h s
  rw [hr] at hs
  cases hs with
  | error _ hf => exact hf

theorem pure (a : α) : Arranges pushes (Pure.pure a) :=
  fun _ => .ok (List.Subset.refl _)

theorem throw {f : Fault} (hf : f ≠ .stackOverflow) : Arranges pushes (MonadExcept.throw f : Action α) :=
  fun _ => .error (List.Subset.refl _) fun h => absurd h hf

/-- **Sequencing.** -/
theorem bind {m : Action α} {k : α → Action β} (hm : Arranges pushes m) (hk : ∀ a, Arranges pushes (k a)) :
    Arranges pushes (m >>= k) := by
  intro s
  have h := hm s
  show Arranged pushes s (EStateM.bind m k s)
  unfold EStateM.bind
  generalize m s = r at h ⊢
  cases h with
  | error hsub hf => exact .error hsub hf
  | @ok a u hu =>
    have hrest := hk a u
    simp only
    generalize k a u = r at hrest ⊢
    cases hrest with
    | ok hsub => exact .ok (List.Subset.trans hsub hu)
    | error hsub hf => exact .error (List.Subset.trans hsub hu) hf

/-! ### The primitive actions -/

theorem pop : Arranges pushes Stack.pop := by
  intro s
  unfold Stack.pop
  split
  · exact .error (List.Subset.refl _) nofun
  · next v rest hs =>
    refine .ok ?_
    rw [hs]
    exact List.subset_cons_self v rest

theorem peek (n : Nat) : Arranges pushes (Stack.peek n) := by
  intro s
  unfold Stack.peek
  split
  · exact .ok (List.Subset.refl _)
  · exact .error (List.Subset.refl _) nofun

theorem exch : Arranges pushes Stack.exch := by
  intro s
  unfold Stack.exch
  split
  · next v w rest hs =>
    refine .ok ?_
    rw [hs]
    exact (List.Perm.swap v w rest).subset
  · exact .error (List.Subset.refl _) nofun

theorem roll (n : Nat) (j : Int) : Arranges pushes (Stack.roll n j) := by
  intro s
  unfold Stack.roll
  by_cases hn : s.size < n
  · rw [if_pos hn]
    exact .error (List.Subset.refl _) nofun
  · rw [if_neg hn]
    refine .ok (List.append_subset.mpr ⟨List.append_subset.mpr ⟨?_, ?_⟩, List.drop_subset n _⟩)
    · exact List.Subset.trans (List.drop_subset _ _) (List.take_subset n _)
    · exact List.Subset.trans (List.take_subset _ _) (List.take_subset n _)

theorem copy (n : Nat) : Arranges True (Stack.copy n) := by
  intro s
  unfold Stack.copy
  by_cases hn : s.size < n
  · rw [if_pos hn]
    exact .error (List.Subset.refl _) nofun
  rw [if_neg hn]
  by_cases hroom : s.hasRoom n = true
  · rw [if_pos hroom]
    exact .ok (List.append_subset.mpr ⟨List.take_subset n _, List.Subset.refl _⟩)
  · rw [if_neg hroom]
    exact .error (List.Subset.refl _) fun _ => trivial

theorem index (n : Nat) : Arranges True (Stack.index n) := by
  intro s
  cases hv : s.items[n]? with
  | none =>
    rw [Stack.index_of_le (List.getElem?_eq_none_iff.mp hv)]
    exact .error (List.Subset.refl _) nofun
  | some v =>
    have hmem : v ∈ s.items := List.mem_of_getElem? hv
    rw [Stack.index_of_getElem? hv, Stack.push]
    by_cases hroom : s.hasRoom 1 = true
    · rw [if_pos hroom]
      exact .ok (List.cons_subset.mpr ⟨hmem, List.Subset.refl _⟩)
    · rw [if_neg hroom]
      exact .error (List.Subset.refl _) fun _ => trivial

end Arranges

theorem Fault.ne_stackOverflow_of_isRefusal {f : Fault} (h : f.isRefusal = true) : f ≠ .stackOverflow := by
  rintro rfl
  cases h

/-- **Actions that push nothing** leave what was there. -/
theorem Composed.arranges {pushes : Prop} {α : Type} {act : Action α} (h : Composed False act) :
    Arranges pushes act := by
  induction h with
  | push hpush _ => exact hpush.elim
  | copy hpush _ => exact hpush.elim
  | pop => exact .pop
  | peek n => exact .peek n
  | exch => exact .exch
  | roll n j => exact .roll n j
  | pure a => exact .pure a
  | throw hf => exact .throw (Fault.ne_stackOverflow_of_isRefusal hf)
  | bind _ _ ihm ihk => exact .bind ihm ihk

/-- The operator pushes copies of values that are on the stack. -/
def Operator.isCopying : Operator → Bool
  | copy | dup | index => true
  | _ => false

/-- The operator takes values off or moves them about, or does nothing. -/
def Operator.isMoving : Operator → Bool
  | exch | pop | roll | openBrace | closeBrace | noOp => true
  | _ => false

section

variable {e : Elementary} {op : Operator}

theorem arranges_of_isCopying (h : op.isCopying = true) :
    ∃ act, op.behaviour e = .plain act ∧ Arranges True act := by
  cases op with
  | copy => exact ⟨_, rfl, .bind Composed.popCount.arranges .copy⟩
  | dup => exact ⟨_, rfl, .index 0⟩
  | index => exact ⟨_, rfl, .bind Composed.popCount.arranges .index⟩
  | _ => cases h

theorem composed_of_isMoving (h : op.isMoving = true) :
    ∃ act, op.behaviour e = .plain act ∧ Composed False act := by
  cases op with
  | exch => exact ⟨_, rfl, .exch⟩
  | pop => exact ⟨_, rfl, .bind .pop fun _ => .pure ()⟩
  | roll => exact ⟨_, rfl, .rolled⟩
  | openBrace | closeBrace | noOp => exact ⟨_, rfl, .pure ()⟩
  | _ => cases h

theorem arranges_of_isMoving (h : op.isMoving = true) :
    ∃ act, op.behaviour e = .plain act ∧ Arranges False act := by
  obtain ⟨act, hb, hact⟩ := composed_of_isMoving (e := e) h
  exact ⟨act, hb, hact.arranges⟩

theorem arranges_of_choosing {choice : Action (Option Procedure)} (h : op.behaviour e = .choosing choice) :
    (op = .ifTrue ∨ op = .ifElse) ∧ Arranges False choice := by
  refine ⟨?_, (composed_of_choosing h).arranges⟩
  cases op with
  | ifTrue => exact .inl rfl
  | ifElse => exact .inr rfl
  | _ => cases h

/-- The operators, by what they do. -/
theorem Operator.sorts (e : Elementary) (op : Operator) :
    (∃ c, op.computation? e = some c) ∨ op.isTest = true ∨ op.isCopying = true ∨ op.isMoving = true ∨
      op = .ifTrue ∨ op = .ifElse := by
  cases op with
  | and | bitshift | eq | ge | gt | le | lt | ne | not | or | xor => exact .inr (.inl rfl)
  | copy | dup | index => exact .inr (.inr (.inl rfl))
  | exch | pop | roll | openBrace | closeBrace | noOp => exact .inr (.inr (.inr (.inl rfl)))
  | ifTrue => exact .inr (.inr (.inr (.inr (.inl rfl))))
  | ifElse => exact .inr (.inr (.inr (.inr (.inr rfl))))
  | _ => exact .inl ⟨_, rfl⟩

/-- **Every operator that acts** trades one or two values for another, copies or moves. -/
theorem plain_cases {R : List Value → Value → Prop} {act : Action Unit} (hb : op.behaviour e = .plain act)
    (hfinite : ∀ vs x, x.isFinite = true → R vs (.number x)) (hboolean : ∀ vs b, R vs (.boolean b))
    (hroot : ∀ x, ¬x < 0 → R [.number x] (.number (e.sqrt x))) :
    (∃ k ≤ 1, Trades R (k + 1) act) ∨ op.isCopying = true ∧ Arranges True act ∨
      op.isMoving = true ∧ Arranges False act := by
  obtain ⟨c, hc⟩ | htest | hcopy | hmove | rfl | rfl := op.sorts e
  · obtain ⟨act', hb', hact⟩ := trades_of_computation hc (fun vs x _ => hfinite vs x) (fun _ => hroot)
    cases hb.symm.trans hb'
    cases c with
    | fromOne f => exact .inl ⟨0, Nat.zero_le 1, hact⟩
    | fromTwo f => exact .inl ⟨1, Nat.le_refl 1, hact⟩
  · obtain ⟨act', k, hk, hb', hact⟩ := trades_of_isTest (e := e) htest hfinite hboolean
    cases hb.symm.trans hb'
    exact .inl ⟨k, hk, hact⟩
  · obtain ⟨act', hb', hact⟩ := arranges_of_isCopying (e := e) hcopy
    cases hb.symm.trans hb'
    exact .inr (.inl ⟨hcopy, hact⟩)
  · obtain ⟨act', hb', hact⟩ := arranges_of_isMoving (e := e) hmove
    cases hb.symm.trans hb'
    exact .inr (.inr ⟨hmove, hact⟩)
  · cases hb
  · cases hb

end

end TypeFour
