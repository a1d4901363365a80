import TypeFour.Proofs.Failures
import TypeFour.Proofs.Rotation

/-!
# `TypeFour.Proofs.Copies` — many values at once, or one after another

The `n` top values can be copied at once by `copy n`, or one after another by `n` times `index (n - 1)`: each
copy that is pushed moves the window up by one, so the same index reaches the next value. If there is room for
all copies the two come to the same. If not, `copy` changes nothing, while the other way fills the room that
there is before it fails. The step is from `m` copies to one more, with `m` of the `n` places of the window on
the copies already; the run goes through as many steps as there is room for.

## Contents
- `Action.times` — an action, several times over.
- `Stack.copied` — the stack with the lower values of its window pushed once more.
- `index_copied`, `times_index` — one step, and several.
- `copy_eq_times_index` — both ways; `copy_eq_times_index_roomForOne` — room for one of two copies.
-/

namespace TypeFour

namespace Action

variable {act : Action Unit} {s t : Stack} {f : Fault} {m : Nat}

/-- The action `k` times over, up to the first failure. -/
def times (act : Action Unit) : Nat → Action Unit
  | 0 => pure ()
  | k + 1 => do
    act.times k
    act

theorem times_succ_of_ok (h : act.times m s = .ok () t) : act.times (m + 1) s = act t :=
  bind_of_ok h

/-- A failure is the end, however many times more were asked for. -/
theorem times_of_error (h : act.times m s = .error f t) (k : Nat) : act.times (m + k) s = .error f t := by
  induction k with
  | zero => exact h
  | succ k ih => exact bind_of_error ih

end Action

namespace Stack

variable {s : Stack} {m n : Nat} {v : Value}

/-! ## Some of the copies -/

/-- The stack with the lower `m` of its `n` top values pushed once more. -/
def copied (n m : Nat) (s : Stack) : Stack :=
  { s with items := (s.items.take n).drop (n - m) ++ s.items }

theorem copied_zero (n : Nat) (s : Stack) : s.copied n 0 = s := by
  rw [copied, Nat.sub_zero, List.drop_eq_nil_of_le (List.length_take_le n _), List.nil_append]

theorem size_copied (hm : m ≤ n) (hn : n ≤ s.size) : (s.copied n m).size = s.size + m := by
  rw [size, copied, List.length_append, List.length_drop, List.length_take_of_le hn, ← size]
  omega

/-- The copies are in order. -/
theorem toList_copied (hn : n ≤ s.size) (m : Nat) :
    (s.copied n m).toList = s.toList ++ (s.window n).take m := by
  rw [toList, toList, window, copied, List.reverse_append, List.take_reverse, List.length_take_of_le hn]

/-- The value for the next copy is the one above those that have been copied. -/
theorem copied_succ (hm : m < n) (hn : n ≤ s.size) (hv : s.items[n - 1 - m]? = some v) :
    s.copied n (m + 1) = { s with items := v :: (s.copied n m).items } := by
  obtain ⟨hlt, rfl⟩ := List.getElem?_eq_some_iff.mp hv
  have hplace : n - (m + 1) = n - 1 - m := by omega
  have hnext : n - m = n - 1 - m + 1 := by omega
  have hin : n - 1 - m < (s.items.take n).length := by
    rw [List.length_take_of_le hn]
    omega
  rw [copied, copied, hplace, hnext, List.drop_eq_getElem_cons hin, List.getElem_take, List.cons_append]

/-- It is at the lower end of the window still. -/
theorem getElem?_copied (hm : m < n) (hn : n ≤ s.size) :
    (s.copied n m).items[n - 1]? = s.items[n - 1 - m]? := by
  have hlength : ((s.items.take n).drop (n - m)).length = m := by
    rw [List.length_drop, List.length_take_of_le hn]
    omega
  rw [copied, List.getElem?_append_right (by omega), hlength]

/-! ## One copy after another -/

/-- **One more copy**, if there is room. -/
theorem index_copied (hm : m < n) (hn : n ≤ s.size) :
    index (n - 1) (s.copied n m) = if (s.copied n m).hasRoom 1 then .ok () (s.copied n (m + 1))
      else .error .stackOverflow (s.copied n m) := by
  have hlt : n - 1 - m < s.items.length := by
    have hsize : n ≤ s.items.length := hn
    omega
  have hv : s.items[n - 1 - m]? = some s.items[n - 1 - m] := List.getElem?_eq_getElem hlt
  rw [index_of_getElem? ((getElem?_copied hm hn).trans hv), copied_succ hm hn hv, push]
  rfl

/-- **Several copies**, if there is room for them. -/
theorem times_index (hm : m ≤ n) (hn : n ≤ s.size) (hroom : ∀ l, s.limit = some l → m ≤ l - s.size) :
    (index (n - 1)).times m s = .ok () (s.copied n m) := by
  induction m with
  | zero =>
    rw [copied_zero]
    rfl
  | succ m ih =>
    have hfirst := ih (Nat.le_of_succ_le hm) fun l hl => Nat.le_of_succ_le (hroom l hl)
    have hone : (s.copied n m).hasRoom 1 = true := by
      refine hasRoom_iff.mpr fun l hl => ?_
      rw [size_copied (Nat.le_of_succ_le hm) hn]
      have hle := hroom l hl
      omega
    rw [Action.times_succ_of_ok hfirst, index_copied hm hn, if_pos hone]

theorem copy_of_le (hn : n ≤ s.size) :
    copy n s = if s.hasRoom n then .ok () (s.copied n n) else .error .stackOverflow s := by
  rw [copy, if_neg (Nat.not_lt.mpr hn), copied, Nat.sub_self, List.drop_zero]

/-- **Both ways to copy** the `n` top values, if there are so many, come to the same: to the stack with the `n`
values on it once more, in order. Or there is no room for all of them. Then `copy` changes nothing, and one of
the `n` calls of `index` fails in the same way, after those for which there was room. If there are not so many
values both ways fail, and change nothing. -/
theorem copy_eq_times_index (s : Stack) (n : Nat) (hpos : 1 ≤ n) :
    (n ≤ s.size →
      (∃ t, copy n s = .ok () t ∧ (index (n - 1)).times n s = .ok () t ∧
        t.toList = s.toList ++ s.window n ∧ t.limit = s.limit) ∨
      (copy n s = .error .stackOverflow s ∧ ∃ m < n, ∃ u,
        (index (n - 1)).times m s = .ok () u ∧ u.toList = s.toList ++ (s.window n).take m ∧
          index (n - 1) u = .error .stackOverflow u ∧
          (index (n - 1)).times n s = .error .stackOverflow u)) ∧
    (s.size < n → copy n s = .error .stackUnderflow s ∧ index (n - 1) s = .error .stackUnderflow s ∧
      (index (n - 1)).times n s = .error .stackUnderflow s) := by
  constructor
  · intro hn
    have hcopy := copy_of_le hn
    by_cases hroom : s.hasRoom n = true
    · have hall : ∀ l, s.limit = some l → n ≤ l - s.size := by
        intro l hl
        have hle := hasRoom_iff.mp hroom l hl
        omega
      have hwindow : (s.window n).length ≤ n := by
        rw [window, List.length_reverse]
        exact List.length_take_le n _
      refine .inl ⟨_, hcopy.trans (if_pos hroom), times_index (Nat.le_refl n) hn hall, ?_, rfl⟩
      rw [toList_copied hn, List.take_of_length_le hwindow]
    · obtain ⟨l, hl, hmore⟩ : ∃ l, s.limit = some l ∧ l < s.size + n := by
        by_contra hnone
        refine hroom (hasRoom_iff.mpr fun l hl => Nat.not_lt.mp fun hlt => hnone ⟨l, hl, hlt⟩)
      -- so many values there is room for, and the next one is too many
      have hm : l - s.size < n := by omega
      have hfirst : (index (n - 1)).times (l - s.size) s = .ok () (s.copied n (l - s.size)) := by
        refine times_index (Nat.le_of_lt hm) hn fun l' hl' => ?_
        cases hl.symm.trans hl'
        exact Nat.le_refl _
      have hfull : ¬(s.copied n (l - s.size)).hasRoom 1 = true := by
        intro hone
        have hle := hasRoom_iff.mp hone l hl
        rw [size_copied (Nat.le_of_lt hm) hn] at hle
        omega
      have hnext := (index_copied hm hn).trans (if_neg hfull)
      have hlast := Action.times_of_error ((Action.times_succ_of_ok hfirst).trans hnext)
        (n - (l - s.size + 1))
      rw [Nat.add_sub_cancel' hm] at hlast
      exact .inr ⟨hcopy.trans (if_neg hroom), _, hm, _, hfirst, toList_copied hn _, hnext, hlast⟩
  · intro hn
    have hindex : index (n - 1) s = .error .stackUnderflow s := index_of_le (by omega)
    have hall := Action.times_of_error ((Action.times_succ_of_ok (m := 0) rfl).trans hindex) (n - 1)
    rw [Nat.zero_add, Nat.add_sub_cancel' hpos] at hall
    exact ⟨if_pos hn, hindex, hall⟩

/-! ### Room for one of two copies -/

/-- Two values, with room for one more. -/
def twoOfThree : Stack :=
  ⟨[.boolean true, .procedure ⟨0, []⟩], some 3⟩

/-- There is room for one copy but not for both: `copy` changes nothing, and one of the two calls of `index`
fails. Three values are too many. -/
theorem copy_eq_times_index_roomForOne :
    2 ≤ twoOfThree.size ∧ copy 2 twoOfThree = .error .stackOverflow twoOfThree ∧
      (∃ m < 2, ∃ u, (index 1).times m twoOfThree = .ok () u ∧
        u.toList = twoOfThree.toList ++ (twoOfThree.window 2).take m ∧
          index 1 u = .error .stackOverflow u ∧ (index 1).times 2 twoOfThree = .error .stackOverflow u) ∧
      twoOfThree.size < 3 ∧ copy 3 twoOfThree = .error .stackUnderflow twoOfThree := by
  have hsize : 2 ≤ twoOfThree.size := by decide
  have hfew : twoOfThree.size < 3 := by decide
  obtain ⟨t, hcopy, -⟩ | ⟨hcopy, hindex⟩ := (copy_eq_times_index twoOfThree 2 (by decide)).1 hsize
  · cases hcopy
  · exact ⟨hsize, hcopy, hindex, hfew, ((copy_eq_times_index twoOfThree 3 (by decide)).2 hfew).1⟩

end Stack

end TypeFour
