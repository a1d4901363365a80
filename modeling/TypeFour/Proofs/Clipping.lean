import TypeFour.BoundedFunction
import TypeFour.Proofs.FloatOrder
import TypeFour.Proofs.Reading

/-!
# `TypeFour.Proofs.Clipping` — what a function hands to its program

A function is made from its bounds in one row, and only from rows that are pairs in order. Its inputs are
brought into their intervals before the program sees them: one that lies in its interval stays, any other
gives way to the bound it lies beyond. Not-a-number lies beyond neither bound, and is handed over as it is.

## Contents
- `PairsInOrder`, `exists_intervals_iff`, `bounds_of_intervals` — the rows that are accepted.
- `Interval.Brings`, `Interval.clip_brings`, `Interval.clip_isNaN` — one input.
- `BoundedFunction.Hands` — all inputs; `make_hands` — a function and its program.
-/

namespace TypeFour

/-! ## Bounds in a row -/

/-- A row of bounds, none of them left over, the lower one of each pair first. -/
structure PairsInOrder (row : List Float) : Prop where
  even : row.length % 2 = 0
  ordered : ∀ k lo hi, row[2 * k]? = some lo → row[2 * k + 1]? = some hi → lo ≤ hi

theorem pairsInOrder_nil : PairsInOrder [] :=
  ⟨rfl, fun _ _ _ h => nomatch h⟩

theorem pairsInOrder_cons_cons {lo hi : Float} {rest : List Float} :
    PairsInOrder (lo :: hi :: rest) ↔ lo ≤ hi ∧ PairsInOrder rest := by
  constructor
  · rintro ⟨heven, hordered⟩
    refine ⟨hordered 0 lo hi rfl rfl, ?_, fun k lo' hi' hlo hhi => ?_⟩
    · rw [List.length_cons, List.length_cons] at heven
      omega
    · exact hordered (k + 1) lo' hi' hlo hhi
  · rintro ⟨hle, heven, hordered⟩
    refine ⟨?_, fun k lo' hi' hlo hhi => ?_⟩
    · rw [List.length_cons, List.length_cons]
      omega
    · cases k with
      | zero =>
        cases hlo
        cases hhi
        exact hle
      | succ k => exact hordered k lo' hi' hlo hhi

/-- **The rows that are accepted** are the pairs in order. -/
theorem exists_intervals_iff {row : List Float} : (∃ is, intervals row = .ok is) ↔ PairsInOrder row := by
  fun_induction intervals row with
  | case1 => simp [pairsInOrder_nil]
  | case2 x =>
    constructor
    · rintro ⟨is, h⟩
      cases h
    · rintro ⟨heven, -⟩
      cases heven
  | case3 lo hi rest ordered ih =>
    rw [pairsInOrder_cons_cons, ← ih]
    cases intervals rest <;> simp [Except.map, ordered]
  | case4 lo hi rest hnot =>
    rw [pairsInOrder_cons_cons]
    simp [hnot]

/-- Every other row is refused in the same way. -/
theorem intervals_fault {row : List Float} {f : Fault} (h : intervals row = .error f) : f = .rangeCheck := by
  fun_induction intervals row with
  | case1 => cases h
  | case2 x =>
    cases h
    rfl
  | case3 lo hi rest ordered ih =>
    cases hrest : intervals rest with
    | error g =>
      rw [hrest] at h ih
      cases h
      exact ih rfl
    | ok is =>
      rw [hrest] at h
      cases h
  | case4 lo hi rest hnot =>
    cases h
    rfl

/-- The bounds can be read off the intervals again. -/
theorem bounds_of_intervals {row : List Float} {is : List Interval} (h : intervals row = .ok is) :
    Interval.bounds is = row := by
  fun_induction intervals row generalizing is with
  | case1 =>
    cases h
    rfl
  | case2 x => cases h
  | case3 lo hi rest ordered ih =>
    cases hrest : intervals rest with
    | error g =>
      rw [hrest] at h
      cases h
    | ok is' =>
      rw [hrest] at h
      cases h
      show lo :: hi :: Interval.bounds is' = lo :: hi :: rest
      rw [ih hrest]
  | case4 lo hi rest hnot => cases h

namespace Interval

theorem length_bounds (is : List Interval) : (bounds is).length = 2 * is.length := by
  induction is with
  | nil => rfl
  | cons i is ih =>
    show (bounds is).length + 2 = 2 * (is.length + 1)
    omega

/-- Each interval stands at twice its number. -/
theorem getElem?_bounds (is : List Interval) (k : Nat) :
    (bounds is)[2 * k]? = is[k]?.map lo ∧ (bounds is)[2 * k + 1]? = is[k]?.map hi := by
  induction is generalizing k with
  | nil => exact ⟨rfl, rfl⟩
  | cons i is ih =>
    cases k with
    | zero => exact ⟨rfl, rfl⟩
    | succ k => exact ih k

/-! ## One input -/

/-- The float `y` is what `x` comes to when it is brought between two bounds: it lies between them, and it is
`x` itself where `x` does, or else the bound that `x` lies beyond. -/
structure Brings (lo hi x y : Float) : Prop where
  within : lo ≤ y ∧ y ≤ hi
  of_within : lo ≤ x → x ≤ hi → y = x
  of_lt : x < lo → y = lo
  of_gt : hi < x → y = hi

/-- **A number** is brought into the interval. -/
theorem clip_brings (i : Interval) {x : Float} (hx : x.isNaN = false) : Brings i.lo i.hi x (i.clip x) := by
  have hle := i.ordered
  obtain ⟨hlo, hhi, -⟩ := Binary64.le_iff.mp hle
  unfold clip
  by_cases hbelow : x < i.lo
  · rw [if_pos hbelow]
    refine ⟨⟨Binary64.le_refl hlo, hle⟩, fun h _ => absurd hbelow (Binary64.not_lt_of_le h), fun _ => rfl,
      fun h => absurd hbelow (Binary64.not_lt_of_lt_of_le hle h)⟩
  rw [if_neg hbelow]
  by_cases habove : i.hi < x
  · rw [if_pos habove]
    exact ⟨⟨hle, Binary64.le_refl hhi⟩, fun _ h => absurd habove (Binary64.not_lt_of_le h),
      fun h => absurd h hbelow, fun _ => rfl⟩
  · rw [if_neg habove]
    exact ⟨⟨Binary64.le_of_not_lt hx hlo hbelow, Binary64.le_of_not_lt hhi hx habove⟩, fun _ _ => rfl,
      fun h => absurd h hbelow, fun h => absurd h habove⟩

/-- **Not-a-number** stays what it is, as no comparison with it is true. -/
theorem clip_isNaN (i : Interval) {x : Float} (hx : x.isNaN = true) : i.clip x = x := by
  have hbelow : ¬x < i.lo := fun h => Bool.false_ne_true ((Binary64.lt_iff.mp h).1.symm.trans hx)
  have habove : ¬i.hi < x := fun h => Bool.false_ne_true ((Binary64.lt_iff.mp h).2.1.symm.trans hx)
  unfold clip
  rw [if_neg hbelow, if_neg habove]

end Interval

/-! ## A function and its program -/

namespace BoundedFunction

/-- The floats `xs` are what the inputs come to in a domain: one for each of them, brought between its two
bounds if it is a number. -/
structure Hands (domain inputs xs : List Float) : Prop where
  length : xs.length = inputs.length
  brings : ∀ (k : Nat) (lo hi x y : Float), domain[2 * k]? = some lo → domain[2 * k + 1]? = some hi →
    inputs[k]? = some x → xs[k]? = some y → x.isNaN = false → Interval.Brings lo hi x y
  keeps : ∀ (k : Nat) (x y : Float), inputs[k]? = some x → xs[k]? = some y → x.isNaN = true → y = x

theorem hands_clip {is : List Interval} {inputs : List Float} (h : inputs.length = is.length) :
    Hands (Interval.bounds is) inputs (List.zipWith Interval.clip is inputs) := by
  have hclip {k : Nat} {x y : Float} (hx : inputs[k]? = some x)
      (hy : (List.zipWith Interval.clip is inputs)[k]? = some y) : ∃ i, is[k]? = some i ∧ y = i.clip x := by
    obtain ⟨i, x', hi, hx', rfl⟩ := List.getElem?_zipWith_eq_some.mp hy
    obtain rfl := Option.some.inj (hx.symm.trans hx')
    exact ⟨i, hi, rfl⟩
  refine ⟨by simp [h], fun k lo hi x y hlo hhi hx hy hnumber => ?_, fun k x y hx hy hnan => ?_⟩
  · obtain ⟨i, hi', rfl⟩ := hclip hx hy
    rw [(Interval.getElem?_bounds is k).1, hi'] at hlo
    rw [(Interval.getElem?_bounds is k).2, hi'] at hhi
    cases hlo
    cases hhi
    exact i.clip_brings hnumber
  · obtain ⟨i, -, rfl⟩ := hclip hx hy
    exact i.clip_isNaN hnan

variable {program : List UInt8} {domain : List Float} {range : Option (List Float)}

theorem mapM_intervals_some (row : List Float) : (some row).mapM intervals = (intervals row).map some := by
  show (do return some (← intervals row) : Except Fault _) = _
  cases intervals row <;> rfl

/-- A range is accepted when it is not there, or when its row is. -/
theorem exists_mapM_intervals_iff :
    (∃ rs, range.mapM intervals = .ok rs) ↔ ∀ row ∈ range, PairsInOrder row := by
  cases range with
  | none => exact ⟨fun _ _ h => (nomatch h), fun _ => ⟨none, rfl⟩⟩
  | some row =>
    simp only [mapM_intervals_some, Option.mem_some_iff, forall_eq', ← exists_intervals_iff]
    cases intervals row <;> simp [Except.map]

theorem mapM_intervals_fault {g : Fault} (h : range.mapM intervals = .error g) : g = .rangeCheck := by
  cases range with
  | none => cases h
  | some row =>
    rw [mapM_intervals_some] at h
    cases hrow : intervals row with
    | error g' =>
      rw [hrow] at h
      cases h
      exact intervals_fault hrow
    | ok is =>
      rw [hrow] at h
      cases h

/-- **A function is made** from the intervals of both rows, or refused. -/
theorem make_cases (program : List UInt8) (domain : List Float) (range : Option (List Float)) :
    (∃ is rs, intervals domain = .ok is ∧ range.mapM intervals = .ok rs ∧
      make program domain range = .ok { program, domain := is, range := rs }) ∨
    make program domain range = .error .rangeCheck ∧
      ((∀ is, intervals domain ≠ .ok is) ∨ ∀ rs, range.mapM intervals ≠ .ok rs) := by
  unfold make
  cases hd : intervals domain with
  | error g =>
    obtain rfl := intervals_fault hd
    exact .inr ⟨rfl, .inl fun is h => nomatch h⟩
  | ok is =>
    cases hr : range.mapM intervals with
    | error g =>
      obtain rfl := mapM_intervals_fault hr
      exact .inr ⟨rfl, .inr fun rs h => nomatch h⟩
    | ok rs => exact .inl ⟨is, rs, rfl, rfl, rfl⟩

/-- **What a function hands to its program.** A function is made exactly when the bounds of its domain and of
its range are pairs in order, and refused with `rangeCheck` otherwise. Given as many inputs as the domain has
pairs, and under whatever options, it comes to what its program does on those inputs brought into the domain;
given more or fewer it fails. Every value that is handed over lies in its interval, unless it is
not-a-number: that is handed over as it is. -/
theorem make_hands (e : Elementary) (program : List UInt8) (domain : List Float)
    (range : Option (List Float)) :
    ((∃ f, make program domain range = .ok f) ↔ PairsInOrder domain ∧ ∀ row ∈ range, PairsInOrder row) ∧
    (∀ g, make program domain range = .error g → g = .rangeCheck) ∧
    ∀ f, make program domain range = .ok f → ∀ n o inputs,
      (2 * inputs.length ≠ domain.length →
        evaluate e n { f with options := o } inputs = some (.error .rangeCheck)) ∧
      (2 * inputs.length = domain.length → ∃ xs, Hands domain inputs xs ∧
        evaluate e n { f with options := o } inputs =
          (TypeFour.evaluate e n o (.ofBytes program) xs).map (·.bind f.outputs)) := by
  rw [← exists_intervals_iff, ← exists_mapM_intervals_iff]
  obtain ⟨is, rs, his, hrs, hmake⟩ | ⟨hmake, hrefused⟩ := make_cases program domain range
  · rw [hmake]
    refine ⟨⟨fun _ => ⟨⟨is, his⟩, rs, hrs⟩, fun _ => ⟨_, rfl⟩⟩, fun g h => (nomatch h), ?_⟩
    rintro f ⟨⟩ n o inputs
    obtain rfl := bounds_of_intervals his
    rw [Interval.length_bounds]
    constructor
    · intro hcount
      exact if_pos fun h => hcount (by rw [h]; rfl)
    · intro hcount
      have hlen : inputs.length = is.length := Nat.eq_of_mul_eq_mul_left (by decide) hcount
      exact ⟨_, hands_clip hlen, if_neg (not_not.mpr hlen)⟩
  · rw [hmake]
    refine ⟨⟨fun ⟨_, h⟩ => (nomatch h), ?_⟩, fun g h => ?_, fun f h => (nomatch h)⟩
    · rintro ⟨⟨is, his⟩, rs, hrs⟩
      rcases hrefused with hd | hr
      · exact absurd his (hd is)
      · exact absurd hrs (hr rs)
    · cases h
      rfl

/-! ### A domain of one point -/

/-- The float `1`. -/
def one : Float :=
  .ofBits 0x3FF0000000000000

/-- The interval that holds nothing else. -/
def onlyOne : Interval :=
  ⟨one, one, by decide⟩

/-- The bytes of `{}`. -/
def emptyBody : List UInt8 :=
  [openByte, closeByte]

/-- The function that gives back what it is given, with `1` as the only point of its domain. -/
def onePoint : BoundedFunction where
  program := emptyBody
  domain := [onlyOne]
  range := none

theorem evaluate_emptyBody (y : Float) : TypeFour.evaluate .machine 0 {} (.ofBytes emptyBody) [y] =
    some (.ok ⟨[.number y], some 100⟩) :=
  (evaluate_of_inputs (by simp [Source.ofBytes]) (by decide) rfl).trans (by rfl)

/-- Infinity is brought to the only point. -/
theorem make_hands_infinity :
    make emptyBody [one, one] none = .ok onePoint ∧ 2 * [Float.ofBits 0x7FF0000000000000].length = 2 ∧
      evaluate .machine 0 onePoint [.ofBits 0x7FF0000000000000] = some (.ok [one]) := by
  have hmake : make emptyBody [one, one] none = .ok onePoint := by rfl
  obtain ⟨xs, hands, heval⟩ := ((make_hands .machine emptyBody [one, one] none).2.2 onePoint hmake 0 {}
    [.ofBits 0x7FF0000000000000]).2 rfl
  obtain ⟨y, rfl⟩ := List.length_eq_one_iff.mp hands.length
  obtain rfl : y = one := (hands.brings 0 one one _ y rfl rfl rfl rfl (by decide)).of_gt (by decide)
  refine ⟨hmake, rfl, heval.trans ?_⟩
  rw [evaluate_emptyBody]
  rfl

/-- Not-a-number is not: it is given back, though no float that it could have been brought to would be. -/
theorem not_brings_notANumber :
    make emptyBody [one, one] none = .ok onePoint ∧
      evaluate .machine 0 onePoint [.ofBits 0x7FF8000000000000] =
        some (.ok [.ofBits 0x7FF8000000000000]) ∧
      ∀ y, Interval.Brings one one (.ofBits 0x7FF8000000000000) y →
        evaluate .machine 0 onePoint [.ofBits 0x7FF8000000000000] ≠
          (TypeFour.evaluate .machine 0 {} (.ofBytes emptyBody) [y]).map (·.bind onePoint.outputs) := by
  have houtput (y : Float) : outputs onePoint ⟨[.number y], some 100⟩ = .ok [y] := rfl
  have hclip : onlyOne.clip (.ofBits 0x7FF8000000000000) =
      .ofBits 0x7FF8000000000000 := Interval.clip_isNaN _ (by decide)
  have hgiven : evaluate .machine 0 onePoint [.ofBits 0x7FF8000000000000] =
      some (.ok [.ofBits 0x7FF8000000000000]) := by
    show (TypeFour.evaluate .machine 0 {} (.ofBytes emptyBody) [Interval.clip _ _]).map _ = _
    rw [hclip, evaluate_emptyBody]
    exact congrArg some (houtput _)
  refine ⟨by rfl, hgiven, fun y hy h => ?_⟩
  rw [hgiven, evaluate_emptyBody] at h
  obtain rfl : Float.ofBits 0x7FF8000000000000 = y := by
    simpa using (Option.some.inj h).trans (houtput y)
  exact absurd hy.within.1 (by decide)

end BoundedFunction

end TypeFour
