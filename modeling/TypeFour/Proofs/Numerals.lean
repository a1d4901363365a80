import Mathlib.Algebra.Order.Field.Rat
import Mathlib.Data.Nat.Digits.Defs
import TypeFour.Decimal.Basic
import TypeFour.Word

/-!
# `TypeFour.Proofs.Numerals` — decimal numbers in writing

A numeral is a sign or none, digits with at most one point and at least one digit, and an exponent or none. Its parts
can be told apart by one byte each: no sign is a digit, a point is neither a sign nor a digit, and an exponent begins
with a letter. So the reader, which takes the parts off one after the other, reads every numeral, and it reads
nothing else.

## Contents
- `Digits`, `Exponent`, `Numeral` — decimal numbers in writing, with what makes them well-formed.
- `Numeral.bytes`, `magnitude`, `sign` — how they are written, and which numbers they are.
- `Decimal.read?_bytes`, `exists_of_read?` — the reader takes in numerals, all of them and nothing else.
-/

namespace TypeFour

open Float.Model.UnpackedFloat (Sign)

/-! ## The grammar -/

/-- A run of digits, which may be empty. -/
abbrev Digits :=
  {ds : List UInt8 // ds.all Decimal.isDigit = true}

theorem Digits.isDigit (ds : Digits) : ∀ b ∈ ds.val, Decimal.isDigit b = true :=
  List.all_eq_true.mp ds.property

/-- The number that digits write, the ones at the end. -/
def Digits.number (ds : Digits) : ℕ :=
  Nat.ofDigits 10 (ds.val.reverse.map Decimal.digitValue)

/-- The byte of a sign. -/
def signByte : Sign → UInt8
  | .negative => 0x2D
  | .positive => 0x2B

/-- A sign that may be left out. -/
def signBytes : Option Sign → Word
  | none => []
  | some s => [signByte s]

/-- The end of a numeral: `e` or `E`, and an integer. -/
structure Exponent where
  capital : Bool
  sign : Option Sign
  digits : Digits
  written : digits.val ≠ []

namespace Exponent

/-- How an exponent is written. -/
def bytes (x : Exponent) : Word :=
  (if x.capital then 0x45 else 0x65) :: (signBytes x.sign ++ x.digits.val)

/-- The integer that an exponent writes. -/
def value (x : Exponent) : ℤ :=
  (x.sign.getD .positive).apply x.digits.number

end Exponent

/-- **A decimal number in writing**: a sign or none, digits with at most one point and at least one digit, and an
exponent or none. -/
structure Numeral where
  mark : Option Sign
  whole : Digits
  fraction : Option Digits
  exponent : Option Exponent
  written : whole.val ≠ [] ∨ ∃ ds ∈ fraction, ds.val ≠ []

namespace Numeral

/-- The digits behind the point. -/
def places (N : Numeral) : Digits :=
  N.fraction.getD ⟨[], rfl⟩

/-- A point and the digits behind it, or neither. -/
def fractionBytes : Option Digits → Word
  | none => []
  | some ds => 0x2E :: ds.val

/-- An exponent, or none. -/
def exponentBytes : Option Exponent → Word
  | none => []
  | some x => x.bytes

/-- How a numeral is written. -/
def bytes (N : Numeral) : Word :=
  signBytes N.mark ++ (N.whole.val ++ (fractionBytes N.fraction ++ exponentBytes N.exponent))

/-- The sign, which is positive if none is written. -/
def sign (N : Numeral) : Sign :=
  N.mark.getD .positive

/-- The integer behind the `e`, or zero. -/
def power (N : Numeral) : ℤ :=
  (N.exponent.map Exponent.value).getD 0

/-- The number in front of the `e`, without its sign. -/
def mantissa (N : Numeral) : ℚ :=
  N.whole.number + N.places.number / 10 ^ N.places.val.length

/-- **The number that is written**, without its sign. -/
def magnitude (N : Numeral) : ℚ :=
  N.mantissa * 10 ^ N.power

/-- The integer that is taken in behind the `e`. -/
def readPower (N : Numeral) : ℤ :=
  (N.exponent.map fun x => (x.sign.getD .positive).apply (Decimal.exponentOf x.digits.val)).getD 0

/-- The decimal that a numeral is read as. -/
def decimal (N : Numeral) : Decimal where
  negative := match N.sign with
    | .negative => true
    | .positive => false
  digits := Decimal.ofDigits (N.whole.val ++ N.places.val)
  exponent := N.readPower - N.places.val.length

end Numeral

/-! ## Reading -/

namespace Decimal

/-- A byte that is no sign. -/
def Unsigned (w : Word) : Prop :=
  ∀ b ∈ w.head?, b ≠ 0x2B ∧ b ≠ 0x2D

theorem splitSign_signBytes (mark : Option Sign) {rest : Word} (h : Unsigned rest) :
    splitSign (signBytes mark ++ rest) =
      (match mark.getD .positive with | .negative => true | .positive => false, rest) := by
  cases mark with
  | some s => cases s <;> rfl
  | none =>
    cases rest with
    | nil => rfl
    | cons b bs =>
      obtain ⟨hplus, hminus⟩ := h b rfl
      show splitSign (b :: bs) = (false, b :: bs)
      simp only [splitSign, if_neg hplus, if_neg hminus]

theorem exists_signBytes (w : Word) :
    ∃ mark, w = signBytes mark ++ (splitSign w).2 := by
  cases w with
  | nil => exact ⟨none, rfl⟩
  | cons b bs =>
    by_cases hminus : b = 0x2D
    · subst hminus
      exact ⟨some .negative, rfl⟩
    · by_cases hplus : b = 0x2B
      · subst hplus
        exact ⟨some .positive, rfl⟩
      · refine ⟨none, ?_⟩
        simp only [splitSign, if_neg hminus, if_neg hplus]
        rfl

/-- The digits at the front, and what follows them. -/
theorem takeWhile_digits (ds : Digits) {rest : Word} (h : ∀ b ∈ rest.head?, isDigit b = false) :
    (ds.val ++ rest).takeWhile isDigit = ds.val ∧ (ds.val ++ rest).dropWhile isDigit = rest := by
  have hfront : rest.takeWhile isDigit = [] ∧ rest.dropWhile isDigit = rest := by
    cases rest with
    | nil => exact ⟨rfl, rfl⟩
    | cons b bs =>
      have hb := h b rfl
      simp [hb]
  rw [List.takeWhile_append_of_pos ds.isDigit, List.dropWhile_append_of_pos ds.isDigit, hfront.1, hfront.2,
    List.append_nil]
  exact ⟨rfl, rfl⟩

theorem exists_digits (w : Word) : ∃ ds : Digits, w = ds.val ++ w.dropWhile isDigit ∧ w.takeWhile isDigit = ds.val :=
  ⟨⟨w.takeWhile isDigit, List.all_takeWhile⟩, (List.takeWhile_append_dropWhile).symm, rfl⟩

theorem unsigned_digits (ds : Digits) {rest : Word} (h : Unsigned rest) : Unsigned (ds.val ++ rest) := by
  obtain ⟨ds, hds⟩ := ds
  cases ds with
  | nil => exact h
  | cons b bs =>
    intro c hc
    cases hc
    have hdigit : isDigit b = true := (Bool.and_eq_true_iff.mp hds).1
    constructor <;> rintro rfl <;> exact absurd hdigit (by decide)

theorem exponentBytes_head (exponent : Option Exponent) :
    ∀ b ∈ (Numeral.exponentBytes exponent).head?, b = 0x65 ∨ b = 0x45 := by
  cases exponent with
  | none => nofun
  | some x =>
    intro b hb
    obtain ⟨capital, sign, ds, hwritten⟩ := x
    cases capital <;> cases hb
    · exact .inl rfl
    · exact .inr rfl

theorem readExponent?_cons (b : UInt8) {bs ds : Word} {negative : Bool} (h : splitSign bs = (negative, ds)) :
    readExponent? (b :: bs) =
      if (b = 0x65 || b = 0x45) && !ds.isEmpty && ds.all isDigit then
        some (if negative then -(exponentOf ds : ℤ) else exponentOf ds)
      else none := by
  rw [readExponent?, h]

theorem readExponent?_exponentBytes (exponent : Option Exponent) :
    readExponent? (Numeral.exponentBytes exponent) =
      some ((exponent.map fun x => (x.sign.getD .positive).apply (exponentOf x.digits.val)).getD 0) := by
  cases exponent with
  | none => rfl
  | some x =>
    obtain ⟨capital, sign, ds, hwritten⟩ := x
    have hunsigned : Unsigned ds.val := by
      have hnil : Unsigned [] := nofun
      have h := unsigned_digits ds hnil
      rwa [List.append_nil] at h
    have hall : ds.val.all isDigit = true := ds.property
    have hempty : ds.val.isEmpty = false := by simpa using hwritten
    have hletter : ((if capital then (0x45 : UInt8) else 0x65) = 0x65 ||
        (if capital then (0x45 : UInt8) else 0x65) = 0x45) = true := by
      cases capital <;> rfl
    rw [Numeral.exponentBytes, Exponent.bytes, readExponent?_cons _ (splitSign_signBytes sign hunsigned), hletter,
      hempty, hall]
    cases sign with
    | none => rfl
    | some s => cases s <;> rfl

theorem exists_exponentBytes {w : Word} {e : ℤ} (h : readExponent? w = some e) :
    ∃ exponent, w = Numeral.exponentBytes exponent := by
  cases w with
  | nil => exact ⟨none, rfl⟩
  | cons b bs =>
    obtain ⟨mark, hsign⟩ := exists_signBytes bs
    have hsplit : splitSign bs = ((splitSign bs).1, (splitSign bs).2) := rfl
    rw [readExponent?_cons b hsplit] at h
    generalize (splitSign bs).2 = ds at h hsign
    split at h
    · next hcondition =>
      rw [Bool.and_eq_true, Bool.and_eq_true, Bool.or_eq_true, decide_eq_true_eq, decide_eq_true_eq,
        Bool.not_eq_true', List.isEmpty_eq_false_iff] at hcondition
      obtain ⟨⟨hletter, hwritten⟩, hall⟩ := hcondition
      refine ⟨some ⟨b = 0x45, mark, ⟨ds, hall⟩, hwritten⟩, ?_⟩
      rw [hsign]
      rcases hletter with rfl | rfl <;> rfl
    · cases h

/-- What follows the digits before the point. -/
theorem splitFraction_bytes (fraction : Option Digits) (exponent : Option Exponent) :
    splitFraction (Numeral.fractionBytes fraction ++ Numeral.exponentBytes exponent) =
      ((fraction.getD ⟨[], rfl⟩).val, Numeral.exponentBytes exponent) := by
  have hhead := exponentBytes_head exponent
  generalize Numeral.exponentBytes exponent = rest at hhead
  have hdigit : ∀ b ∈ rest.head?, isDigit b = false := by
    intro b hb
    rcases hhead b hb with rfl | rfl <;> rfl
  cases fraction with
  | some ds =>
    obtain ⟨htake, hdrop⟩ := takeWhile_digits ds hdigit
    show ((ds.val ++ rest).takeWhile isDigit, (ds.val ++ rest).dropWhile isDigit) = _
    rw [htake, hdrop]
    rfl
  | none =>
    cases rest with
    | nil => rfl
    | cons b bs =>
      have hpoint : b ≠ 0x2E := by
        rcases hhead b rfl with rfl | rfl <;> decide
      exact if_neg hpoint

theorem exists_fractionBytes (w : Word) :
    ∃ fraction : Option Digits, w = Numeral.fractionBytes fraction ++ (splitFraction w).2 ∧
      (splitFraction w).1 = (fraction.getD ⟨[], rfl⟩).val := by
  cases w with
  | nil => exact ⟨none, rfl, rfl⟩
  | cons b bs =>
    by_cases hpoint : b = 0x2E
    · subst hpoint
      obtain ⟨ds, hbytes, htake⟩ := exists_digits bs
      exact ⟨some ds, congrArg (0x2E :: ·) hbytes, htake⟩
    · refine ⟨none, ?_⟩
      simp only [splitFraction, if_neg hpoint]
      exact ⟨rfl, rfl⟩

theorem head?_fractionBytes_append (fraction : Option Digits) (exponent : Option Exponent) :
    ∀ b ∈ (Numeral.fractionBytes fraction ++ Numeral.exponentBytes exponent).head?, b = 0x2E ∨ b = 0x65 ∨ b = 0x45 := by
  cases fraction with
  | none =>
    intro b hb
    exact .inr (exponentBytes_head exponent b hb)
  | some ds =>
    intro b hb
    cases hb
    exact .inl rfl

/-- **A numeral is read** from end to end. -/
theorem read?_bytes (N : Numeral) : read? N.bytes = some N.decimal := by
  obtain ⟨mark, whole, fraction, exponent, hwritten⟩ := N
  have hhead := head?_fractionBytes_append fraction exponent
  have hunsigned : Unsigned (Numeral.fractionBytes fraction ++ Numeral.exponentBytes exponent) := by
    intro b hb
    rcases hhead b hb with rfl | rfl | rfl <;> decide
  have hdigit : ∀ b ∈ (Numeral.fractionBytes fraction ++ Numeral.exponentBytes exponent).head?, isDigit b = false := by
    intro b hb
    rcases hhead b hb with rfl | rfl | rfl <;> rfl
  obtain ⟨htake, hdrop⟩ := takeWhile_digits whole hdigit
  have hsome : (whole.val.isEmpty && (fraction.getD ⟨[], rfl⟩).val.isEmpty) = false := by
    rcases hwritten with hwhole | ⟨ds, rfl, hplaces⟩
    · simp [hwhole]
    · simp [hplaces]
  show read? (signBytes mark ++ (whole.val ++ (Numeral.fractionBytes fraction ++ Numeral.exponentBytes exponent))) = _
  unfold read?
  rw [splitSign_signBytes mark (unsigned_digits whole hunsigned)]
  simp only [htake, hdrop, splitFraction_bytes, hsome, readExponent?_exponentBytes]
  rfl

/-- **Nothing else is read.** -/
theorem exists_of_read? {w : Word} {d : Decimal} (h : read? w = some d) : ∃ N : Numeral, N.bytes = w := by
  obtain ⟨mark, hsign⟩ := exists_signBytes w
  unfold read? at h
  generalize splitSign w = split at h hsign
  obtain ⟨negative, body⟩ := split
  simp only at h hsign
  obtain ⟨whole, hbody, htake⟩ := exists_digits body
  obtain ⟨fraction, hrest, hplaces⟩ := exists_fractionBytes (body.dropWhile isDigit)
  generalize splitFraction (body.dropWhile isDigit) = split at h hrest hplaces
  obtain ⟨places, tail⟩ := split
  simp only [htake] at h hrest hplaces
  split at h
  · cases h
  next hsome =>
  obtain ⟨e, hexponent, -⟩ := Option.map_eq_some_iff.mp h
  obtain ⟨exponent, rfl⟩ := exists_exponentBytes hexponent
  have hwritten : whole.val ≠ [] ∨ ∃ ds ∈ fraction, ds.val ≠ [] := by
    subst hplaces
    rw [Bool.and_eq_true, List.isEmpty_iff, List.isEmpty_iff, not_and_or] at hsome
    refine hsome.imp_right fun hne => ?_
    cases fraction with
    | none => exact absurd rfl hne
    | some ds => exact ⟨ds, rfl, hne⟩
  refine ⟨⟨mark, whole, fraction, exponent, hwritten⟩, ?_⟩
  rw [hsign, hbody, hrest]
  rfl

end Decimal

end TypeFour
