import Mathlib.Data.Int.ModEq
import Mathlib.Data.List.Rotate
import TypeFour.Stack

/-!
# `TypeFour.Proofs.Rotation` — rolling turns a window of the stack

The `n` top values are a window on the stack. Rolling turns this window: with the places in it counted from the
bottom and taken modulo `n`, each value moves up by `j` places, and what is beneath the window stays. The amount
may be any integer, and only its remainder by `n` matters. So turns add up, a turn is undone by the opposite
one, and the turn of two values by one place is their exchange.

## Contents
- `Stack.window`, `Stack.beneath` — the top values, and those beneath them.
- `Stack.turned`, `roll_of_le`, `roll_of_lt` — what rolling comes to.
- `turned_turned`, `roll_roll` — turns add up.
- `MovesUp`, `turned_movesUp` — where each value goes.
- `roll_turns` — all of it; `roll_turns_leastInteger` — the least of the 64-bit integers.
-/

namespace TypeFour.Stack

variable {s : Stack} {n : Nat} {j k l : Int}

/-! ## The window -/

/-- The `n` top values, from the bottom up. -/
def window (n : Nat) (s : Stack) : List Value :=
  (s.items.take n).reverse

/-- The values beneath the `n` top ones, from the bottom up. -/
def beneath (n : Nat) (s : Stack) : List Value :=
  (s.items.drop n).reverse

/-- The stack with its window of `n` values turned by `j` places. -/
def turned (n : Nat) (j : Int) (s : Stack) : Stack :=
  { s with items := (s.items.take n).rotate (j % n).toNat ++ s.items.drop n }

theorem length_rotate_take (h : n ≤ s.size) (i : Nat) : ((s.items.take n).rotate i).length = n := by
  rw [List.length_rotate, List.length_take_of_le h]

theorem take_turned (h : n ≤ s.size) (j : Int) :
    (s.turned n j).items.take n = (s.items.take n).rotate (j % n).toNat :=
  List.take_left' (length_rotate_take h _)

theorem drop_turned (h : n ≤ s.size) (j : Int) : (s.turned n j).items.drop n = s.items.drop n :=
  List.drop_left' (length_rotate_take h _)

theorem size_turned (n : Nat) (j : Int) (s : Stack) : (s.turned n j).size = s.size := by
  rw [size, turned, List.length_append, List.length_rotate, ← List.length_append, List.take_append_drop, size]

/-! ## Rolling -/

/-- **Rolling turns the window**, if there is one. -/
theorem roll_of_le (h : n ≤ s.size) (j : Int) : roll n j s = .ok () (s.turned n j) := by
  have hturn : (s.items.take n).drop (j % n).toNat ++ (s.items.take n).take (j % n).toNat =
      (s.items.take n).rotate (j % n).toNat := by
    cases n with
    | zero => simp
    | succ n =>
      have hlt : j % (n + 1 : Nat) < (n + 1 : Nat) := Int.emod_lt_of_pos j (by omega)
      refine (List.rotate_eq_drop_append_take ?_).symm
      rw [List.length_take_of_le h]
      omega
  unfold roll
  rw [if_neg (Nat.not_lt.mpr h)]
  simp only [hturn, turned]

/-- There are not so many values. -/
theorem roll_of_lt (h : s.size < n) (j : Int) : roll n j s = .error .stackUnderflow s :=
  if_pos h

/-! ## Turns add up -/

/-- A window is turned alike by amounts that are equal modulo its length. -/
theorem rotate_congr {vs : List Value} {a b : Nat} (h : (a : Int) ≡ b [ZMOD vs.length]) :
    vs.rotate a = vs.rotate b := by
  have hmod : a % vs.length = b % vs.length := by exact_mod_cast h
  rw [← List.rotate_mod, hmod, List.rotate_mod]

/-- The number of places, which is not negative if there is a place at all. -/
theorem toNat_emod_modEq (hn : 0 < n) (j : Int) : ((j % n).toNat : Int) ≡ j [ZMOD n] := by
  rw [Int.toNat_of_nonneg (Int.emod_nonneg j (by omega))]
  exact Int.mod_modEq j n

/-- **Two turns** are one by the sum of their amounts. -/
theorem turned_turned (h : n ≤ s.size) (hl : l ≡ j + k [ZMOD n]) :
    (s.turned n j).turned n k = s.turned n l := by
  have hsum : ((s.items.take n).rotate (j % n).toNat).rotate (k % n).toNat =
      (s.items.take n).rotate (l % n).toNat := by
    cases n with
    | zero => simp
    | succ n =>
      rw [List.rotate_rotate]
      refine rotate_congr ?_
      rw [List.length_take_of_le h, Nat.cast_add]
      have hturns := (toNat_emod_modEq n.succ_pos j).add (toNat_emod_modEq n.succ_pos k)
      exact hturns.trans (hl.symm.trans (toNat_emod_modEq n.succ_pos l).symm)
  rw [turned, take_turned h, drop_turned h, hsum]
  rfl

/-- To turn by nothing is to leave the stack as it is. -/
theorem turned_zero (n : Nat) (s : Stack) : s.turned n 0 = s := by
  rw [turned, Int.zero_emod, Int.toNat_zero, List.rotate_zero, List.take_append_drop]

/-- **One roll after another.** -/
theorem roll_roll (hl : l ≡ j + k [ZMOD n]) (s : Stack) : (do roll n j; roll n k) s = roll n l s := by
  by_cases h : n ≤ s.size
  · have h' : n ≤ (s.turned n j).size := by rwa [size_turned]
    rw [Action.bind_of_ok (roll_of_le h j), roll_of_le h', roll_of_le h, turned_turned h hl]
  · have hfew := Nat.not_le.mp h
    rw [Action.bind_of_error (roll_of_lt hfew j), roll_of_lt hfew]

/-- Two values that are turned by one place are exchanged. -/
theorem roll_two_one (s : Stack) : roll 2 1 s = exch s := by
  obtain ⟨items, limit⟩ := s
  match items with
  | [] | [_] => rfl
  | v :: w :: rest => rfl

/-! ## Where values go -/

/-- In the window of `n` values each one has moved up by `j` places, counted around; all else is the same. -/
structure MovesUp (n : Nat) (j : Int) (s t : Stack) : Prop where
  limit_eq : t.limit = s.limit
  size_eq : t.size = s.size
  beneath_eq : t.beneath n = s.beneath n
  moved : ∀ i < n, (t.window n)[((i + j) % n).toNat]? = (s.window n)[i]?

/-- The place from which a turn brings the value for the place `(i + j) % n`, both counted from the top. -/
theorem turned_place {i : Nat} (hi : i < n) (j : Int) :
    (n - 1 - ((i + j) % n).toNat + (j % n).toNat) % n = n - 1 - i := by
  have hn : 0 < n := Nat.zero_lt_of_lt hi
  have hlt : (i + j) % n < n := Int.emod_lt_of_pos _ (by omega)
  have hnonneg : 0 ≤ (i + j) % n := Int.emod_nonneg _ (by omega)
  have hmod : ((n - 1 - ((i + j) % n).toNat + (j % n).toNat : Nat) : Int) ≡ (n - 1 - i : Nat) [ZMOD n] := by
    have hleft : ((n - 1 - ((i + j) % n).toNat : Nat) : Int) = n - 1 - (i + j) % n := by omega
    have hright : ((n - 1 - i : Nat) : Int) = n - 1 - (i + j) + j := by omega
    rw [Nat.cast_add, hleft, hright]
    exact ((Int.ModEq.refl _).sub (Int.mod_modEq _ _)).add (toNat_emod_modEq hn j)
  have heq := (Int.natCast_modEq_iff.mp hmod : _ % n = _ % n)
  rw [heq, Nat.mod_eq_of_lt (by omega)]

/-- **A turn** moves every value up. -/
theorem turned_movesUp (h : n ≤ s.size) (j : Int) : MovesUp n j s (s.turned n j) where
  limit_eq := rfl
  size_eq := size_turned n j s
  beneath_eq := by rw [beneath, beneath, drop_turned h]
  moved := by
    intro i hi
    have hlength : (s.items.take n).length = n := List.length_take_of_le h
    have hlt : (i + j) % n < n := Int.emod_lt_of_pos _ (by omega)
    have hplace : ((i + j) % n).toNat < ((s.items.take n).rotate (j % n).toNat).length := by
      rw [length_rotate_take h]
      omega
    have hi' : i < (s.items.take n).length := by rwa [hlength]
    rw [window, window, take_turned h, List.getElem?_reverse hplace, List.getElem?_reverse hi',
      length_rotate_take h, hlength, List.getElem?_rotate (by omega), hlength, turned_place hi]

/-- **Rolling is a turn of the window.** In a window of `n` values each one moves up by `j` places modulo `n`,
for any integer `j`, and nothing else changes. One roll after another is a roll by any amount that is equal to
the sum of theirs modulo `n`, and a roll is undone by any amount that is equal to the opposite of its own. To
roll two values by one is to exchange them. To roll no values does nothing, and to roll more values than there
are fails and changes nothing. -/
theorem roll_turns (s : Stack) (n : Nat) :
    (n ≤ s.size → ∀ j, ∃ t, roll n j s = .ok () t ∧ MovesUp n j s t) ∧
    (∀ j k l, l ≡ j + k [ZMOD n] → (do roll n j; roll n k) s = roll n l s) ∧
    (n ≤ s.size → ∀ j l, l ≡ -j [ZMOD n] → (do roll n j; roll n l) s = .ok () s) ∧
    roll 2 1 s = exch s ∧
    (∀ j, roll 0 j s = .ok () s) ∧
    (s.size < n → ∀ j, roll n j s = .error .stackUnderflow s) := by
  refine ⟨?_, ?_, ?_, roll_two_one s, ?_, ?_⟩
  · intro h j
    exact ⟨_, roll_of_le h j, turned_movesUp h j⟩
  · intro j k l hl
    exact roll_roll hl s
  · intro h j l hl
    -- together they are a turn by nothing
    have hzero : 0 ≡ j + l [ZMOD n] := by
      have hsum : j + l ≡ j + -j [ZMOD n] := (Int.ModEq.refl j).add hl
      rw [Int.add_right_neg] at hsum
      exact hsum.symm
    rw [roll_roll hzero s, roll_of_le h, turned_zero]
  · intro j
    rw [roll_of_le (Nat.zero_le _), turned, List.take_zero, List.rotate_nil, List.drop_zero, List.nil_append]
  · intro h j
    exact roll_of_lt h j

/-! ### The least of the 64-bit integers -/

/-- Two procedures beneath two booleans. -/
def fourValues : Stack :=
  ⟨[.boolean true, .boolean false, .procedure ⟨1, []⟩, .procedure ⟨0, []⟩], some 4⟩

/-- Three of the four values are turned by the least 64-bit integer, which two places more undo. Five values are
too many. -/
theorem roll_turns_leastInteger :
    3 ≤ fourValues.size ∧
      (∃ t, roll 3 Int64.minValue.toInt fourValues = .ok () t ∧
        MovesUp 3 Int64.minValue.toInt fourValues t ∧
        t.window 3 = [.boolean true, .procedure ⟨1, []⟩, .boolean false]) ∧
      2 ≡ -Int64.minValue.toInt [ZMOD 3] ∧
      (do roll 3 Int64.minValue.toInt; roll 3 2) fourValues = .ok () fourValues ∧
      fourValues.size < 5 ∧ roll 5 1 fourValues = .error .stackUnderflow fourValues := by
  have hsize : 3 ≤ fourValues.size := by decide
  have hopposite : 2 ≡ -Int64.minValue.toInt [ZMOD 3] := by decide
  have hfew : fourValues.size < 5 := by decide
  obtain ⟨hturns, -, hundone, -⟩ := roll_turns fourValues 3
  obtain ⟨t, ht, hmoves⟩ := hturns hsize Int64.minValue.toInt
  refine ⟨hsize, ⟨t, ht, hmoves, ?_⟩, hopposite, hundone hsize _ _ hopposite, hfew,
    (roll_turns fourValues 5).2.2.2.2.2 hfew 1⟩
  cases ht
  rfl

end TypeFour.Stack
