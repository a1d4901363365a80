import TypeFour.Addressing
import TypeFour.Proofs.Rotation

/-!
# `TypeFour.Proofs.Addressing` — machine words suffice, but for one count

The stack in memory reckons with machine words. This file shows that the words are wide enough: on every stack that a
machine can number, with less than 2^63 values, no sum or difference overflows, no place outside the stack is reached
for and nothing is divided by zero, so each action comes to what it comes to without words. There is one count for
which this is not so. To look beneath 2^64 - 1 values one more is counted, which does not fit, and the action is
aborted in either build; no count that a program takes off the stack is as large.

Shape. Arithmetic on words is the arithmetic on numbers wherever the result fits (`add_eq_some`, `sub_eq_some`,
`remEuclid_eq_some`), and what is done to the memory is read from the top (`read_eq`, `swap_eq`, `extendFrom_eq`,
`rotateRight_eq`). The actions follow the checks that they make.

## Contents
- `add_eq_some`, `sub_eq_some`, `remEuclid_eq_some` — results that fit.
- `read_eq`, `swap_eq`, `extendFrom_eq`, `rotateRight_eq` — the memory from the top.
- `peek_eq`, …, `roll_eq` — the actions; `actions_eq` — all of them, and where they underflow.
- `peek_largest`, `not_answered_largest` — the count that is too large; `index_of_popCount` — those of a program.
-/

namespace TypeFour.Addressed

variable {build : Build} {s : Stack}

/-! ## Words -/

theorem add_eq_some {a b : UInt64} (h : a.toNat + b.toNat < 2 ^ 64) : add build a b = some (a + b) := by
  have hfits : decide (a.toNat + b.toNat < UInt64.size) = true := decide_eq_true h
  rw [add, hfits]
  rfl

theorem toNat_add {a b : UInt64} (h : a.toNat + b.toNat < 2 ^ 64) : (a + b).toNat = a.toNat + b.toNat := by
  rw [UInt64.toNat_add, Nat.mod_eq_of_lt h]

theorem sub_eq_some {a b : UInt64} (h : b ≤ a) : sub build a b = some (a - b) := by
  rw [sub, decide_eq_true h]
  rfl

/-- A word with the first digit clear is the same number with a sign. -/
theorem toInt_toInt64 {n : UInt64} (h : n.toNat < 2 ^ 63) : n.toInt64.toInt = n.toNat := by
  show n.toBitVec.toInt = n.toBitVec.toNat
  exact BitVec.toInt_eq_toNat_of_lt (by show 2 * n.toNat < 2 ^ 64; omega)

/-- Division by a positive number leaves a remainder, which is not negative. -/
theorem remEuclid_eq_some {n : UInt64} (hn : n ≠ 0) (h : n.toNat < 2 ^ 63) (j : Int64) :
    ∃ k, remEuclid j n.toInt64 = some k ∧ k.toUInt64.toNat = (j.toInt % n.toNat).toNat := by
  have hvalue := toInt_toInt64 h
  have hpos : 0 < n.toNat := Nat.pos_of_ne_zero fun h0 => hn (UInt64.toNat_inj.mp h0)
  have hnonneg : 0 ≤ j.toInt % n.toNat := Int.emod_nonneg _ (by omega)
  have hlt : j.toInt % n.toNat < n.toNat := Int.emod_lt_of_pos _ (by omega)
  have hdivisor : ¬(n.toInt64 = 0 ∨ (j = Int64.minValue ∧ n.toInt64 = -1)) := by
    rintro (h0 | ⟨-, h1⟩)
    · have : (n.toNat : Int) = 0 := by rw [← hvalue, h0]; rfl
      omega
    · have : (n.toNat : Int) = -1 := by rw [← hvalue, h1]; rfl
      omega
  refine ⟨_, if_neg hdivisor, ?_⟩
  rw [hvalue]
  have hk : (Int64.ofInt (j.toInt % n.toNat)).toInt = j.toInt % n.toNat :=
    Int64.toInt_ofInt_of_le (by omega) (by omega)
  have hsign : 0 ≤ Int64.ofInt (j.toInt % n.toNat) := by
    rw [Int64.le_iff_toInt_le, hk]
    exact hnonneg
  rw [Int64.toNat_toUInt64_of_le hsign, Int64.toNatClampNeg, hk]

/-! ## Memory -/

section

variable (hs : s.size < 2 ^ 63)

include hs

theorem toNat_length : (length s).toNat = s.size :=
  UInt64.toNat_ofNat_of_lt' (by show s.size < 2 ^ 64; omega)

theorem length_lt_iff {n : UInt64} : length s < n ↔ s.size < n.toNat := by
  rw [UInt64.lt_iff_toNat_lt, toNat_length hs]

theorem toNat_length_sub {n : UInt64} (h : n.toNat ≤ s.size) : (length s - n).toNat = s.size - n.toNat := by
  have hle : n ≤ length s := by rwa [UInt64.le_iff_toNat_le, toNat_length hs]
  rw [UInt64.toNat_sub_of_le _ _ hle, toNat_length hs]

theorem length_sub_eq_some {n : UInt64} (h : n.toNat ≤ s.size) : sub build (length s) n = some (length s - n) := by
  apply sub_eq_some
  rwa [UInt64.le_iff_toNat_le, toNat_length hs]

/-- The value in a place, from the top. -/
theorem read_eq {n : UInt64} (hn : 0 < n.toNat) (h : n.toNat ≤ s.size) :
    read (length s - n) s = s.items[n.toNat - 1]? := by
  have hlt : s.size - n.toNat < s.items.length := by rw [← Stack.size]; omega
  rw [read, toNat_length_sub hs h, Stack.toList, List.getElem?_reverse hlt, ← Stack.size]
  congr 1
  omega

/-- From the place beneath the `n` top values on, the memory holds their window. -/
theorem drop_toList {n : UInt64} (h : n.toNat ≤ s.size) :
    s.toList.drop (length s - n).toNat = s.window n.toNat := by
  rw [toNat_length_sub hs h, Stack.toList, List.drop_reverse, ← Stack.size, Nat.sub_sub_self h, Stack.window]

theorem take_toList {n : UInt64} (h : n.toNat ≤ s.size) :
    s.toList.take (length s - n).toNat = s.beneath n.toNat := by
  rw [toNat_length_sub hs h, Stack.toList, List.take_reverse, ← Stack.size, Nat.sub_sub_self h, Stack.beneath]

theorem extendFrom_eq {n : UInt64} (h : n.toNat ≤ s.size) :
    extendFrom (length s - n) s = some { s with items := s.items.take n.toNat ++ s.items } := by
  have hplace : (length s - n).toNat ≤ s.size := by
    rw [toNat_length_sub hs h]
    exact Nat.sub_le _ _
  rw [extendFrom, if_pos hplace, drop_toList hs h, holding, Stack.window, Stack.toList, List.reverse_append,
    List.reverse_reverse, List.reverse_reverse]

theorem rotateRight_eq {n k : UInt64} (h : n.toNat ≤ s.size) (hk : k.toNat ≤ n.toNat) :
    rotateRight (length s - n) k s =
      some { s with items := (s.items.take n.toNat).rotate k.toNat ++ s.items.drop n.toNat } := by
  have hplace : (length s - n).toNat ≤ s.size := by
    rw [toNat_length_sub hs h]
    exact Nat.sub_le _ _
  have htop : (s.items.take n.toNat).length = n.toNat := List.length_take_of_le h
  have hwindow : (s.window n.toNat).length = n.toNat := by rw [Stack.window, List.length_reverse, htop]
  have hturn : (s.window n.toNat).drop (n.toNat - k.toNat) ++ (s.window n.toNat).take (n.toNat - k.toNat) =
      ((s.items.take n.toNat).rotate k.toNat).reverse := by
    rw [List.rotate_eq_drop_append_take (by rwa [htop]), List.reverse_append, Stack.window, List.drop_reverse,
      List.take_reverse, htop, Nat.sub_sub_self hk]
  simp only [rotateRight, drop_toList hs h, take_toList hs h, hwindow, hturn]
  rw [if_pos ⟨hplace, hk⟩, holding, Stack.beneath, List.reverse_append, List.reverse_reverse, List.reverse_reverse]

theorem swap_eq {v w : Value} {rest : List Value} (hitems : s.items = v :: w :: rest) :
    swap (length s - 1) (length s - 2) s = some { s with items := w :: v :: rest } := by
  have hsize : s.size = rest.length + 2 := by rw [Stack.size, hitems]; rfl
  have hone : (length s - 1).toNat = rest.length + 1 := by
    rw [toNat_length_sub hs (by rw [hsize]; exact Nat.le_add_left 1 _), hsize]
    rfl
  have htwo : (length s - 2).toNat = rest.length := by
    rw [toNat_length_sub hs (by rw [hsize]; exact Nat.le_add_left 2 _), hsize]
    rfl
  have hlist : s.toList = rest.reverse ++ [w, v] := by simp [Stack.toList, hitems]
  simp [swap, read, hone, htwo, hlist, holding]

/-! ## Actions -/

/-- **Looking**, unless it is beneath the largest number of values. -/
theorem peek_eq {n : UInt64} (hn : n.toNat + 1 < 2 ^ 64) : peek build n s = some (Stack.peek n.toNat s) := by
  have hone : n.toNat + (1 : UInt64).toNat < 2 ^ 64 := hn
  have hdepth : (n + 1).toNat = n.toNat + 1 := toNat_add hone
  by_cases h : n.toNat < s.size
  · have hle : n + 1 ≤ length s := by
      rw [UInt64.le_iff_toNat_le, hdepth, toNat_length hs]
      exact h
    have hread : read (length s - (n + 1)) s = s.items[n.toNat]? := by
      rw [read_eq hs (by omega) (by omega), hdepth, Nat.add_sub_cancel]
    have hvalue : s.items[n.toNat]? = some s.items[n.toNat] := List.getElem?_eq_getElem h
    simp [peek, add_eq_some hone, checkedSub, hle, hread, hvalue, Stack.peek]
  · have hlt : ¬n + 1 ≤ length s := by
      rw [UInt64.le_iff_toNat_le, hdepth, toNat_length hs]
      omega
    have hnone : s.items[n.toNat]? = none := List.getElem?_eq_none (Nat.not_lt.mp h)
    simp [peek, add_eq_some hone, checkedSub, hlt, hnone, Stack.peek]

theorem index_eq {n : UInt64} (hn : n.toNat + 1 < 2 ^ 64) : index build n s = some (Stack.index n.toNat s) := by
  rw [index, peek_eq hs hn]
  cases hv : s.items[n.toNat]? with
  | some v =>
    rw [Stack.index_of_getElem? hv]
    simp [Stack.peek, hv, pushFound]
  | none =>
    rw [Stack.index_of_le (List.getElem?_eq_none_iff.mp hv)]
    simp [Stack.peek, hv, pushFound]

theorem dup_eq : dup build s = some (Stack.dup s) :=
  index_eq (n := 0) hs (by decide)

theorem exch_eq : exch build s = some (Stack.exch s) := by
  have hfew : length s < 2 ↔ s.size < 2 := length_lt_iff hs
  unfold exch Stack.exch
  match hitems : s.items with
  | [] | [_] =>
    rw [if_pos (by rw [hfew, Stack.size, hitems]; simp)]
  | v :: w :: rest =>
    have htwo : 2 ≤ s.size := by
      rw [Stack.size, hitems]
      exact Nat.le_add_left 2 _
    have hone : 1 ≤ s.size := Nat.le_of_succ_le htwo
    rw [if_neg (by rw [hfew]; exact Nat.not_lt.mpr htwo), length_sub_eq_some (n := 1) hs hone,
      length_sub_eq_some (n := 2) hs htwo]
    simp [swap_eq hs hitems]

/-- Whether there is room is the same question. -/
theorem lacksRoom_eq {n : UInt64} (h : n.toNat ≤ s.size) : lacksRoom build n s = some (!s.hasRoom n.toNat) := by
  have hfits : (length s).toNat + n.toNat < 2 ^ 64 := by
    rw [toNat_length hs]
    omega
  unfold lacksRoom Stack.hasRoom
  cases s.limit with
  | none => rfl
  | some most =>
    simp only [add_eq_some hfits]
    show some (decide (most < (length s + n).toNat)) = some (!decide (s.size + n.toNat ≤ most))
    rw [toNat_add hfits, toNat_length hs, ← decide_not, decide_eq_decide.mpr Nat.not_le.symm]

theorem copy_eq (n : UInt64) : copy build n s = some (Stack.copy n.toNat s) := by
  unfold copy Stack.copy
  by_cases h : s.size < n.toNat
  · rw [if_pos ((length_lt_iff hs).mpr h), if_pos h]
  · have hle : n.toNat ≤ s.size := Nat.not_lt.mp h
    rw [if_neg (mt (length_lt_iff hs).mp h), if_neg h, lacksRoom_eq hs hle]
    cases hroom : s.hasRoom n.toNat with
    | true => simp [length_sub_eq_some hs hle, extendFrom_eq hs hle]
    | false => simp

theorem roll_eq (n : UInt64) (j : Int64) : roll build n j s = some (Stack.roll n.toNat j.toInt s) := by
  unfold roll
  by_cases h : s.size < n.toNat
  · rw [if_pos ((length_lt_iff hs).mpr h), Stack.roll_of_lt h]
  · have hle : n.toNat ≤ s.size := Nat.not_lt.mp h
    rw [if_neg (mt (length_lt_iff hs).mp h), Stack.roll_of_le hle, Stack.turned]
    by_cases hzero : n = 0
    · simp [hzero]
    · obtain ⟨k, hrem, hk⟩ := remEuclid_eq_some hzero (Nat.lt_of_le_of_lt hle hs) j
      have hpos : 0 < n.toNat := Nat.pos_of_ne_zero fun h0 => hzero (UInt64.toNat_inj.mp h0)
      have hlt : j.toInt % n.toNat < n.toNat := Int.emod_lt_of_pos _ (by omega)
      have hturn := rotateRight_eq hs (n := n) (k := k.toUInt64) hle (by omega)
      rw [hk] at hturn
      simp [hzero, hrem, length_sub_eq_some hs hle, hturn]

end

/-- The action underflows. -/
def Underflows {α : Type} (ending : Option (Ending α)) : Prop :=
  ∃ t, ending = some (.error .stackUnderflow t)

/-- The largest count. -/
def largest : UInt64 := 0xFFFFFFFFFFFFFFFF

theorem toNat_succ_lt {n : UInt64} (h : n ≠ largest) : n.toNat + 1 < 2 ^ 64 := by
  have hlt := n.toNat_lt
  have hne : n.toNat ≠ 2 ^ 64 - 1 := fun heq => h (UInt64.toNat_inj.mp heq)
  omega

theorem underflows_peek_iff (n : Nat) : Underflows (some (Stack.peek n s)) ↔ s.size ≤ n := by
  unfold Stack.peek
  cases hv : s.items[n]? with
  | some v =>
    obtain ⟨hlt, -⟩ := List.getElem?_eq_some_iff.mp hv
    exact iff_of_false nofun (Nat.not_le.mpr hlt)
  | none => exact iff_of_true ⟨s, rfl⟩ (List.getElem?_eq_none_iff.mp hv)

theorem underflows_index_iff (n : Nat) : Underflows (some (Stack.index n s)) ↔ s.size ≤ n := by
  cases hv : s.items[n]? with
  | some v =>
    obtain ⟨hlt, -⟩ := List.getElem?_eq_some_iff.mp hv
    -- the value has been found, and what may be missing is room for it
    rw [Stack.index_of_getElem? hv, Stack.push]
    refine iff_of_false ?_ (Nat.not_le.mpr hlt)
    split <;> nofun
  | none =>
    have hle := List.getElem?_eq_none_iff.mp hv
    rw [Stack.index_of_le hle]
    exact iff_of_true ⟨s, rfl⟩ hle

theorem underflows_copy_iff (n : Nat) : Underflows (some (Stack.copy n s)) ↔ s.size < n := by
  unfold Stack.copy
  by_cases h : s.size < n
  · rw [if_pos h]
    exact iff_of_true ⟨s, rfl⟩ h
  · rw [if_neg h]
    refine iff_of_false ?_ h
    split <;> nofun

theorem underflows_roll_iff (n : Nat) (j : Int) : Underflows (some (Stack.roll n j s)) ↔ s.size < n := by
  by_cases h : s.size < n
  · rw [Stack.roll_of_lt h]
    exact iff_of_true ⟨s, rfl⟩ h
  · rw [Stack.roll_of_le (Nat.not_lt.mp h)]
    exact iff_of_false nofun h

/-- **Words suffice.** On a stack of less than 2^63 values every action comes to what it comes to without words, in
either build and within any limit, for every count and every amount; only to look beneath 2^64 - 1 values is left out.
A count that is too large is an underflow: for `peek` and `index` from the number of values on, for `copy` and `roll`
above it. -/
theorem actions_eq (build : Build) (s : Stack) (hs : s.size < 2 ^ 63) :
    (∀ n, n ≠ largest → peek build n s = some (Stack.peek n.toNat s) ∧
      index build n s = some (Stack.index n.toNat s) ∧
      (Underflows (peek build n s) ↔ s.size ≤ n.toNat) ∧
      (Underflows (index build n s) ↔ s.size ≤ n.toNat)) ∧
    (∀ n, copy build n s = some (Stack.copy n.toNat s) ∧ (Underflows (copy build n s) ↔ s.size < n.toNat)) ∧
    (∀ n j, roll build n j s = some (Stack.roll n.toNat j.toInt s) ∧
      (Underflows (roll build n j s) ↔ s.size < n.toNat)) ∧
    dup build s = some (Stack.dup s) ∧ exch build s = some (Stack.exch s) := by
  refine ⟨fun n hn => ?_, fun n => ?_, fun n j => ?_, dup_eq hs, exch_eq hs⟩
  · have hfits := toNat_succ_lt hn
    rw [peek_eq hs hfits, index_eq hs hfits]
    exact ⟨rfl, rfl, underflows_peek_iff _, underflows_index_iff _⟩
  · rw [copy_eq hs]
    exact ⟨rfl, underflows_copy_iff _⟩
  · rw [roll_eq hs]
    exact ⟨rfl, underflows_roll_iff _ _⟩

/-- Three booleans; a fourth value finds no room. -/
def threeValues : Stack :=
  ⟨[.boolean true, .boolean false, .boolean true], some 3⟩

/-- With the words of a build that wraps around, the least 64-bit integer turns the three values by one place, and the
largest count but one is an underflow. -/
theorem actions_eq_threeValues :
    threeValues.size < 2 ^ 63 ∧ largest - 1 ≠ largest ∧
      roll .wrapping 3 Int64.minValue threeValues = some (Stack.roll 3 Int64.minValue.toInt threeValues) ∧
      Underflows (index .wrapping (largest - 1) threeValues) := by
  have hs : threeValues.size < 2 ^ 63 := by decide
  have hn : largest - 1 ≠ largest := by decide
  obtain ⟨hlook, -, hroll, -⟩ := actions_eq .wrapping threeValues hs
  obtain ⟨-, -, -, hindex⟩ := hlook (largest - 1) hn
  exact ⟨hs, hn, (hroll 3 Int64.minValue).1, hindex.mpr (by decide)⟩

/-! ## The largest count -/

/-- **Looking beneath the largest number of values** is aborted. With overflow checks the count and one more do not
fit; without them they come to 0, and the place is the one above the top value. -/
theorem peek_largest (hs : s.size < 2 ^ 63) (build : Build) : peek build largest s = none := by
  cases build with
  | checked => rfl
  | wrapping =>
    have hadd : add .wrapping largest 1 = some 0 := rfl
    have hplace : checkedSub (length s) 0 = some (length s) := by simp [checkedSub]
    have hread : read (length s) s = none := by
      rw [read, toNat_length hs]
      exact List.getElem?_eq_none (by simp [Stack.toList, Stack.size])
    simp [peek, hadd, hplace, hread]

theorem index_largest (hs : s.size < 2 ^ 63) (build : Build) : index build largest s = none := by
  rw [index, peek_largest hs]
  rfl

/-- On an empty stack the largest count is no underflow, and no ending at all, in either build. -/
theorem not_answered_largest :
    peek .checked largest {} = none ∧ peek .wrapping largest {} = none ∧
      index .checked largest {} = none ∧ index .wrapping largest {} = none ∧
      ¬∀ (build : Build) (s : Stack), s.size < 2 ^ 63 → ∀ n, (peek build n s).isSome := by
  refine ⟨rfl, rfl, rfl, rfl, fun h => ?_⟩
  exact Bool.false_ne_true (h .wrapping {} (by decide) largest)

/-- A count that is taken off the stack is a 64-bit integer with its sign, and so it is not the largest. -/
theorem popCount_lt {t : Stack} {n : Nat} (h : Stack.popCount s = .ok n t) : n < 2 ^ 63 := by
  obtain ⟨i, u, -, hcount⟩ := Action.ok_of_bind h
  split at hcount
  · cases hcount
  · cases hcount
    have hlt := i.toInt_lt
    show i.toInt.toNat < 2 ^ 63
    omega

/-- **A program does not meet it**: the count that it takes off the stack may be looked beneath. -/
theorem index_of_popCount {t : Stack} {n : Nat} (h : Stack.popCount s = .ok n t) (ht : t.size < 2 ^ 63)
    (build : Build) : index build (.ofNat n) t = some (Stack.index n t) := by
  have hlt := popCount_lt h
  have hn : (UInt64.ofNat n).toNat = n := UInt64.toNat_ofNat_of_lt' (by show n < 2 ^ 64; omega)
  have hindex : index build (.ofNat n) t = some (Stack.index (UInt64.ofNat n).toNat t) := index_eq ht (by omega)
  rwa [hn] at hindex

end TypeFour.Addressed
