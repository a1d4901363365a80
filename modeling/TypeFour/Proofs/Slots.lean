import Mathlib.Algebra.Order.BigOperators.Group.List
import Mathlib.Algebra.Order.Group.Multiset
import TypeFour.Proofs.Moments
import TypeFour.Proofs.Operands

/-!
# `TypeFour.Proofs.Slots` — recorded instructions as a resource

A recorded instruction has a slot: the block it was recorded into, its position there, and what it is. The slots of
a procedure are those of its instructions, with those of the blocks inside. A replay carries out some of them and
leaves others on the stack. Unless something is copied it makes none: what is carried out and what is left on the
stack after it was, all of it and each of it once, in the procedure or on the stack before.

Two things follow. An instruction carried out is used up; and as a procedure is taken off the stack when it is
chosen, by an instruction that is used up, replays inside replays come to an end.

## Contents
- `Slot`, `Procedure.slots`, `Stack.slots` — the slots there are.
- `replayed`, `mem_replayed` — the slots that a replay carries out.
- `CopyFree`, `slots_plain_le`, `Operator.Chooses.slots_le` — operators that copy nothing.
- `replayed_add_slots_le` — replays make no slots.
- `replay_ne_none` — replays end.
-/

namespace TypeFour

variable {e : Elementary} {n : Nat}

/-! ## Slots -/

/-- Where an instruction was recorded: the block, by its opening brace, and the number of instructions before it
there; and the instruction itself. -/
structure Slot where
  origin : Nat
  index : Nat
  instruction : Instruction

/-- The block and the position, which no two instructions of a program have in common. -/
def Slot.place (x : Slot) : Nat × Nat :=
  (x.origin, x.index)

mutual

/-- The slots of the block that an instruction pushes, if it pushes one. -/
def Instruction.slots : Instruction → Multiset Slot
  | .block origin body => slotsFrom origin 0 body
  | _ => 0

/-- The slots of instructions that stand in a block from some position on, and of the blocks inside. -/
def slotsFrom (origin : Nat) : Nat → List Instruction → Multiset Slot
  | _, [] => 0
  | k, i :: is => ⟨origin, k, i⟩ ::ₘ (i.slots + slotsFrom origin (k + 1) is)

end

/-- The slots of a procedure and of the blocks inside. -/
def Procedure.slots (p : Procedure) : Multiset Slot :=
  slotsFrom p.origin 0 p.body

/-- The slots of a value: none, unless it is a procedure. -/
def Value.slots : Value → Multiset Slot
  | .procedure p => p.slots
  | _ => 0

/-- The slots of all procedures on the stack. -/
def Stack.slots (s : Stack) : Multiset Slot :=
  (s.items.map Value.slots).sum

/-- The slots on the stack that a run leaves, whether it succeeds or fails. -/
def Run.slots : Run → Multiset Slot
  | some (.ok _ t) => t.slots
  | some (.error _ t) => t.slots
  | none => 0

theorem Value.slots_toInstruction (v : Value) : v.toInstruction.slots = v.slots := by
  cases v <;> rfl

theorem Instruction.slots_operator (op : Operator) : (Instruction.operator op).slots = 0 :=
  rfl

theorem slotsFrom_append (origin k : Nat) (is js : List Instruction) :
    slotsFrom origin k (is ++ js) = slotsFrom origin k is + slotsFrom origin (k + is.length) js := by
  induction is generalizing k with
  | nil => simp [slotsFrom]
  | cons i is ih =>
    rw [List.cons_append, slotsFrom, slotsFrom, ih, List.length_cons, Nat.add_right_comm k, Nat.add_assoc k,
      Multiset.cons_add, add_assoc]

/-! ## What a replay carries out -/

/-- The slots of instructions carried out one after the other, each with what `inner` says is carried out inside
it, up to the first that fails or has no result. -/
def replayedFrom (step : Instruction → Stack → Run) (inner : Instruction → Stack → List Slot) (origin : Nat) :
    Nat → List Instruction → Stack → List Slot
  | _, [], _ => []
  | k, i :: is, s =>
    ⟨origin, k, i⟩ :: (inner i s ++
      match step i s with
      | some (.ok _ t) => replayedFrom step inner origin (k + 1) is t
      | _ => [])

/-- The slots carried out inside an operator: those of the procedure it chooses, by `again`. -/
def replayedBy (e : Elementary) (again : Procedure → Stack → List Slot) (op : Operator) (s : Stack) : List Slot :=
  match op.behaviour e with
  | .plain _ => []
  | .choosing choose =>
    match choose s with
    | .ok (some p) t => again p t
    | _ => []

/-- The slots carried out inside an instruction. -/
def replayedIn (e : Elementary) (again : Procedure → Stack → List Slot) (i : Instruction) (s : Stack) :
    List Slot :=
  match i with
  | .operator op => replayedBy e again op s
  | _ => []

/-- **The slots that a replay carries out**, in order, with those of all replays inside it. The stacks in between
are those of `replay` under the same bound. -/
def replayed (e : Elementary) : Nat → Procedure → Stack → List Slot
  | 0, _, _ => []
  | n + 1, p, s => replayedFrom (perform e (replay e n)) (replayedIn e (replayed e n)) p.origin 0 p.body s

theorem mem_replayedFrom {step : Instruction → Stack → Run} {inner : Instruction → Stack → List Slot}
    {origin k j : Nat} {body : List Instruction} {i : Instruction} {s t : Stack}
    (h : runAll step body s = some (.ok () t)) (hi : body[j]? = some i) :
    ⟨origin, k + j, i⟩ ∈ replayedFrom step inner origin k body s := by
  induction body generalizing k j s with
  | nil => cases hi
  | cons i' is ih =>
    rw [runAll] at h
    rw [replayedFrom]
    cases hr : step i' s with
    | none =>
      rw [hr] at h
      cases h
    | some r =>
      rw [hr] at h
      cases r with
      | error f u => cases h
      | ok _ u =>
        cases j with
        | zero =>
          obtain rfl := Option.some.inj hi
          exact List.mem_cons_self
        | succ j =>
          have hrest := ih (k := k + 1) h hi
          rw [Nat.add_right_comm] at hrest
          exact List.mem_cons_of_mem _ (List.mem_append_right _ hrest)

/-- **A replay that succeeds** carries out every instruction of the procedure. -/
theorem mem_replayed {p : Procedure} {s t : Stack} {j : Nat} {i : Instruction}
    (h : replay e n p.body s = some (.ok () t)) (hi : p.body[j]? = some i) :
    ⟨p.origin, j, i⟩ ∈ replayed e n p s := by
  cases n with
  | zero => cases h
  | succ n =>
    have hmem : ⟨p.origin, 0 + j, i⟩ ∈ replayed e (n + 1) p s := mem_replayedFrom h hi
    rwa [Nat.zero_add] at hmem

/-! ## Operators that copy nothing -/

/-- No instruction among these copies values of the stack. -/
def CopyFree (slots : Multiset Slot) : Prop :=
  ∀ x ∈ slots, ∀ op, x.instruction = .operator op → op.isCopying = false

theorem CopyFree.of_le {T U : Multiset Slot} (h : CopyFree U) (hle : T ≤ U) : CopyFree T :=
  fun x hx => h x (Multiset.mem_of_le hle hx)

theorem Stack.slots_le_of_subperm {s t : Stack} (h : t.items.Subperm s.items) : t.slots ≤ s.slots := by
  obtain ⟨items, hperm, hsub⟩ := h
  have hmap : (items.map Value.slots).sum = t.slots := (hperm.map Value.slots).sum_eq
  rw [← hmap]
  exact (hsub.map Value.slots).sum_le_sum fun _ _ => Multiset.zero_le _

theorem Stack.slots_cons (v : Value) (items : List Value) (limit : Option Nat) :
    Stack.slots ⟨v :: items, limit⟩ = v.slots + Stack.slots ⟨items, limit⟩ :=
  List.sum_cons

theorem Stack.slots_of_push {v : Value} {s t : Stack} (h : Stack.push v s = .ok () t) :
    t.slots = v.slots + s.slots := by
  unfold Stack.push at h
  split at h
  · cases h
    exact Stack.slots_cons v _ _
  · cases h

/-- **Actions that push nothing** leave values that were there, each of them once. -/
theorem Composed.left_subperm {α : Type} {act : Action α} (h : Composed False act) (s : Stack) :
    (act.left s).items.Subperm s.items := by
  induction h generalizing s with
  | push hpush _ => exact hpush.elim
  | copy hpush _ => exact hpush.elim
  | pop =>
    unfold Action.left Stack.pop
    obtain ⟨items, limit⟩ := s
    cases items with
    | nil => exact .refl _
    | cons v vs => exact (List.sublist_cons_self v vs).subperm
  | peek n =>
    unfold Action.left Stack.peek
    cases s.items[n]? <;> exact .refl _
  | exch =>
    unfold Action.left Stack.exch
    obtain ⟨items, limit⟩ := s
    match items with
    | [] | [_] => exact .refl _
    | v :: w :: rest => exact (List.Perm.swap v w rest).subperm
  | roll n j =>
    unfold Action.left Stack.roll
    by_cases hn : s.size < n
    · rw [if_pos hn]
    · rw [if_neg hn]
      apply List.Perm.subperm
      calc ((s.items.take n).drop (j % n).toNat ++ (s.items.take n).take (j % n).toNat ++ s.items.drop n).Perm
            ((s.items.take n).take (j % n).toNat ++ (s.items.take n).drop (j % n).toNat ++ s.items.drop n) :=
          List.perm_append_comm.append_right _
        _ = s.items := by rw [List.take_append_drop, List.take_append_drop]
  | pure a => exact .refl _
  | throw hf => exact .refl _
  | @bind α β m k _ _ ihm ihk =>
    have hm := ihm s
    rw [Action.left_bind]
    cases hr : m s with
    | ok a t =>
      rw [Action.left_of_ok hr] at hm
      exact (ihk a t).trans hm
    | error f t =>
      rwa [Action.left_of_error hr] at hm

/-- **A trade** of values for one that is no procedure. -/
theorem Trades.slots_left_le {act : Action Unit} {k : Nat} (h : Trades (fun _ w => w.slots = 0) k act) (s : Stack) :
    (act.left s).slots ≤ s.slots := by
  have hdropped (j : Nat) : Stack.slots { s with items := s.items.drop j } ≤ s.slots :=
    Stack.slots_le_of_subperm (List.drop_sublist j _).subperm
  cases hr : act s with
  | ok a t =>
    obtain ⟨w, hw, rfl⟩ := h.ok hr
    rw [Action.left_of_ok hr, Stack.slots_cons, hw, zero_add]
    exact hdropped k
  | error f t =>
    obtain ⟨j, -, rfl⟩ := h.error hr
    rw [Action.left_of_error hr]
    exact hdropped j

section

variable {op : Operator} {s t : Stack}

/-- **An operator that acts and copies nothing** makes no slots. -/
theorem slots_plain_le {act : Action Unit} (hb : op.behaviour e = .plain act) (hop : op.isCopying = false)
    (s : Stack) : (act.left s).slots ≤ s.slots := by
  obtain ⟨k, -, hact⟩ | ⟨hcopying, -⟩ | ⟨hmoving, -⟩ := plain_cases (R := fun _ w => w.slots = 0) hb
    (fun _ _ _ => rfl) (fun _ _ => rfl) (fun _ _ => rfl)
  · exact hact.slots_left_le s
  · rw [hop] at hcopying
    cases hcopying
  · obtain ⟨act', hb', hact⟩ := composed_of_isMoving (e := e) hmoving
    cases hb.symm.trans hb'
    exact Stack.slots_le_of_subperm (hact.left_subperm s)

/-- **A procedure that is chosen** has been taken off the stack. -/
theorem Operator.Chooses.slots_le {p : Procedure} (h : op.Chooses e s p t) : p.slots + t.slots ≤ s.slots := by
  obtain ⟨choice, hb, hchoice⟩ := h
  obtain ⟨rfl | rfl, -⟩ := arranges_of_choosing hb
  · cases hb
    obtain ⟨items, limit⟩ := s
    match items with
    | [] | [.procedure _] | .number _ :: _ | .boolean _ :: _ | .procedure _ :: .number _ :: _ |
        .procedure _ :: .procedure _ :: _ => cases hchoice
    | .procedure q :: .boolean b :: rest =>
      cases b with
      | false => cases hchoice
      | true =>
        cases hchoice
        rw [Stack.slots_cons, Stack.slots_cons]
        simp [Value.slots]
  · cases hb
    obtain ⟨items, limit⟩ := s
    match items with
    | [] | [.procedure _] | .number _ :: _ | .boolean _ :: _ | .procedure _ :: .number _ :: _ |
        .procedure _ :: .boolean _ :: _ | [.procedure _, .procedure _] |
        .procedure _ :: .procedure _ :: .number _ :: _ |
        .procedure _ :: .procedure _ :: .procedure _ :: _ => cases hchoice
    | .procedure q :: .procedure r :: .boolean b :: rest =>
      rw [Stack.slots_cons, Stack.slots_cons, Stack.slots_cons]
      cases b with
      | false =>
        cases hchoice
        simp only [Value.slots, zero_add]
        exact add_le_add_right (Multiset.le_add_left _ _) _
      | true =>
        cases hchoice
        simp only [Value.slots, zero_add]
        exact Multiset.le_add_left _ _

end

/-! ## Replays -/

theorem Action.slots_some (act : Action Unit) (s : Stack) : Run.slots (some (act s)) = (act.left s).slots := by
  unfold Action.left
  cases act s <;> rfl

/-- What an instruction carries out inside, and what it leaves, was in it or on the stack. -/
def Spends (step : Instruction → Stack → Run) (inner : Instruction → Stack → List Slot) : Prop :=
  ∀ i s, (∀ op, i = .operator op → op.isCopying = false) → CopyFree (i.slots + s.slots) →
    (inner i s : Multiset Slot) + (step i s).slots ≤ i.slots + s.slots

theorem replayedFrom_add_slots_le {step : Instruction → Stack → Run} {inner : Instruction → Stack → List Slot}
    (hstep : Spends step inner) (origin : Nat) (body : List Instruction) (k : Nat) (s : Stack)
    (h : CopyFree (slotsFrom origin k body + s.slots)) :
    (replayedFrom step inner origin k body s : Multiset Slot) + (runAll step body s).slots ≤
      slotsFrom origin k body + s.slots := by
  induction body generalizing k s with
  | nil =>
    show (0 : Multiset Slot) + s.slots ≤ 0 + s.slots
    exact le_refl _
  | cons i is ih =>
    have hsplit : slotsFrom origin k (i :: is) + s.slots =
        ⟨origin, k, i⟩ ::ₘ (slotsFrom origin (k + 1) is + (i.slots + s.slots)) := by
      rw [slotsFrom, Multiset.cons_add, add_comm i.slots, add_assoc]
    rw [hsplit] at h ⊢
    have hfree : CopyFree (slotsFrom origin (k + 1) is + (i.slots + s.slots)) := h.of_le (Multiset.le_cons_self _ _)
    have hone := hstep i s (h ⟨origin, k, i⟩ (Multiset.mem_cons_self _ _)) (hfree.of_le (Multiset.le_add_left _ _))
    -- an instruction that does not succeed is the last
    have hlast {r : Run} (hr : (inner i s : Multiset Slot) + r.slots ≤ i.slots + s.slots) :
        ((⟨origin, k, i⟩ :: (inner i s ++ []) : List Slot) : Multiset Slot) + r.slots ≤
          ⟨origin, k, i⟩ ::ₘ (slotsFrom origin (k + 1) is + (i.slots + s.slots)) := by
      rw [List.append_nil, ← Multiset.cons_coe, Multiset.cons_add]
      exact Multiset.cons_le_cons _ (hr.trans (Multiset.le_add_left _ _))
    rw [replayedFrom, runAll]
    cases hr : step i s with
    | none =>
      rw [hr] at hone
      exact hlast hone
    | some r =>
      rw [hr] at hone
      cases r with
      | error f t => exact hlast hone
      | ok _ t =>
        have hleft : t.slots ≤ i.slots + s.slots := (Multiset.le_add_left _ _).trans hone
        have hrest := ih (k + 1) t (hfree.of_le (add_le_add_right hleft _))
        simp only
        rw [← Multiset.cons_coe, ← Multiset.coe_add, Multiset.cons_add, add_assoc]
        apply Multiset.cons_le_cons
        calc (inner i s : Multiset Slot) +
              ((replayedFrom step inner origin (k + 1) is t : Multiset Slot) + (runAll step is t).slots)
            ≤ inner i s + (slotsFrom origin (k + 1) is + t.slots) := add_le_add_right hrest _
          _ = slotsFrom origin (k + 1) is + (inner i s + t.slots) := add_left_comm _ _ _
          _ ≤ slotsFrom origin (k + 1) is + (i.slots + s.slots) := add_le_add_right hone _

section

variable {again : List Instruction → Stack → Run} {log : Procedure → Stack → List Slot}
  (hagain : ∀ p s, CopyFree (p.slots + s.slots) →
    (log p s : Multiset Slot) + (again p.body s).slots ≤ p.slots + s.slots)

include hagain

theorem replayedBy_add_slots_le {op : Operator} (hop : op.isCopying = false) {s : Stack} (h : CopyFree s.slots) :
    (replayedBy e log op s : Multiset Slot) + (execute e again op s).slots ≤ s.slots := by
  unfold replayedBy execute
  cases hb : op.behaviour e with
  | plain act =>
    show (0 : Multiset Slot) + Run.slots (some (act s)) ≤ s.slots
    rw [zero_add, Action.slots_some]
    exact slots_plain_le hb hop s
  | choosing choice =>
    have hleft := Stack.slots_le_of_subperm ((composed_of_choosing hb).left_subperm s)
    simp only
    cases hc : choice s with
    | error f t =>
      rw [Action.left_of_error hc] at hleft
      show (0 : Multiset Slot) + t.slots ≤ s.slots
      rwa [zero_add]
    | ok c t =>
      cases c with
      | none =>
        rw [Action.left_of_ok hc] at hleft
        show (0 : Multiset Slot) + t.slots ≤ s.slots
        rwa [zero_add]
      | some p =>
        have hchosen : p.slots + t.slots ≤ s.slots := Operator.Chooses.slots_le ⟨choice, hb, hc⟩
        exact (hagain p t (h.of_le hchosen)).trans hchosen

theorem spends_perform : Spends (perform e again) (replayedIn e log) := by
  intro i s hop h
  have hpush (v : Value) : (0 : Multiset Slot) + Run.slots (some (Stack.push v s)) ≤ v.slots + s.slots := by
    rw [zero_add, Action.slots_some]
    cases hr : Stack.push v s with
    | ok _ t =>
      rw [Action.left_of_ok hr]
      exact le_of_eq (Stack.slots_of_push hr)
    | error f t =>
      have hsame : t = s := by
        unfold Stack.push at hr
        split at hr <;> cases hr
        rfl
      rw [Action.left_of_error hr, hsame]
      exact Multiset.le_add_left _ _
  cases i with
  | number x => exact hpush (.number x)
  | boolean b => exact hpush (.boolean b)
  | block origin body => exact hpush (.procedure ⟨origin, body⟩)
  | operator op =>
    show _ ≤ (0 : Multiset Slot) + s.slots
    rw [zero_add]
    exact replayedBy_add_slots_le hagain (hop op rfl) (h.of_le (Multiset.le_add_left _ _))

end

/-- **A replay makes no slots.** What it carries out and what it leaves on the stack was in the procedure or on the
stack, if nothing there is copied. -/
theorem replayed_add_slots_le (n : Nat) (p : Procedure) (s : Stack) (h : CopyFree (p.slots + s.slots)) :
    (replayed e n p s : Multiset Slot) + (replay e n p.body s).slots ≤ p.slots + s.slots := by
  -- on the bound: what an operator chooses is replayed under the next smaller one
  induction n generalizing p s with
  | zero => exact Multiset.zero_le _
  | succ n ih => exact replayedFrom_add_slots_le (spends_perform ih) p.origin p.body 0 s h

/-- **An operator**, with all that it replays. -/
theorem replayedBy_replayed_add_slots_le (n : Nat) {op : Operator} (hop : op.isCopying = false) {s : Stack}
    (h : CopyFree s.slots) :
    (replayedBy e (replayed e n) op s : Multiset Slot) + (execute e (replay e n) op s).slots ≤ s.slots :=
  replayedBy_add_slots_le (replayed_add_slots_le n) hop h

/-! ## Replays end -/

/-- When a procedure is chosen in a replay, the instruction that chooses it has been used up. -/
theorem Chosen.slots_le {p q : Procedure} {s t : Stack} (h : Chosen e p.body s q t)
    (hfree : CopyFree (p.slots + s.slots)) : ∃ x, x ::ₘ (q.slots + t.slots) ≤ p.slots + s.slots := by
  obtain ⟨before, op, after, u, n, hbody, hbefore, hchooses⟩ := h
  have hsplit : p.slots = slotsFrom p.origin 0 before + ⟨p.origin, before.length, .operator op⟩ ::ₘ
      slotsFrom p.origin (before.length + 1) after := by
    rw [Procedure.slots, hbody, slotsFrom_append, slotsFrom, Instruction.slots_operator, Nat.zero_add, zero_add]
  refine ⟨⟨p.origin, before.length, .operator op⟩, ?_⟩
  have hfront : slotsFrom p.origin 0 before + s.slots ≤ p.slots + s.slots := by
    rw [hsplit]
    exact add_le_add_left (Multiset.le_add_right _ _) _
  have hspent := replayed_add_slots_le (e := e) n ⟨p.origin, before⟩ s (hfree.of_le hfront)
  rw [hbefore] at hspent
  have hu : u.slots ≤ slotsFrom p.origin 0 before + s.slots := (Multiset.le_add_left _ _).trans hspent
  calc (⟨p.origin, before.length, .operator op⟩ : Slot) ::ₘ (q.slots + t.slots)
      ≤ ⟨p.origin, before.length, .operator op⟩ ::ₘ (slotsFrom p.origin 0 before + s.slots) :=
        Multiset.cons_le_cons _ (hchooses.slots_le.trans hu)
    _ ≤ ⟨p.origin, before.length, .operator op⟩ ::ₘ (slotsFrom p.origin 0 before + s.slots) +
        slotsFrom p.origin (before.length + 1) after := Multiset.le_add_right _ _
    _ = p.slots + s.slots := by
        rw [hsplit, Multiset.cons_add, Multiset.add_cons, Multiset.cons_add, add_right_comm]

/-- **A replay ends** under any bound greater than the number of slots. -/
theorem replay_ne_none {p : Procedure} {s : Stack} (hfree : CopyFree (p.slots + s.slots))
    (hn : (p.slots + s.slots).card < n) : replay e n p.body s ≠ none := by
  induction n generalizing p s with
  | zero => exact absurd hn (Nat.not_lt_zero _)
  | succ n ih =>
    rw [Ne, replay_succ_eq_none_iff]
    rintro ⟨q, t, hchosen, hnone⟩
    obtain ⟨x, hle⟩ := hchosen.slots_le hfree
    have hcard := Multiset.card_le_card hle
    rw [Multiset.card_cons] at hcard
    exact ih (hfree.of_le ((Multiset.le_cons_self _ _).trans hle)) (by omega) hnone

end TypeFour
