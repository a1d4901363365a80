import TypeFour.Decimal.Basic
import TypeFour.Fault
import TypeFour.Operator
import TypeFour.Options
import TypeFour.Word

/-!
# `TypeFour.Token` — what a word means

The first byte of a word settles what it can be. A brace is an operator. A word that begins with
`t` or `f` may be a boolean; any byte below `A` begins a number; everything else is the name of an
operator, if it is anything.

A word that is nothing of the kind is a fault under the strict policy and stands for `noOp` under
the lenient one.

## Contents
- `Token` — a number, a boolean or an operator.
- `numberOf?`, `booleanOf?` — the literals; `booleanOf?_eq_some_iff` — how booleans are written.
- `Token.ofWord` — the meaning of a word under a policy.
-/

namespace TypeFour

/-- What one word means. -/
inductive Token where
  | number (n : Float)
  | boolean (b : Bool)
  | operator (op : Operator)

/-! ## Literals -/

/-- A word without a `+` at its front; the `+` stays when `-` comes next, which makes the word no
numeral. -/
def withoutPlus : Word → Word
  | b :: rest => if b = 0x2B ∧ rest.head? ≠ some 0x2D then rest else b :: rest
  | [] => []

/-- The number that a word writes: a numeral whose value is finite, with one more `+` allowed in
front. -/
def numberOf? (w : Word) : Option Float :=
  ((Decimal.read? (withoutPlus w)).map Decimal.toFloat).filter Float.isFinite

/-- The boolean that a word writes, by its length and the bytes at fixed places. -/
def booleanOf? (w : Word) : Option Bool :=
  match w with
  | [b, c, d, e] => if b = 0x74 ∧ c = 0x72 ∧ e = 0x65 ∧ d = 0x75 then some true else none
  | [b, c, d, e, f] => if b = 0x66 ∧ c = 0x61 ∧ f = 0x65 ∧ [d, e] = [0x6C, 0x73] then some false else none
  | _ => none

/-- `true` and `false`, in small letters only. -/
def booleanWord : Bool → Word
  | true => [0x74, 0x72, 0x75, 0x65]
  | false => [0x66, 0x61, 0x6C, 0x73, 0x65]

theorem booleanOf?_eq_some_iff {w : Word} {truth : Bool} :
    booleanOf? w = some truth ↔ w = booleanWord truth := by
  constructor
  · intro h
    unfold booleanOf? at h
    split at h
    · split at h
      · next hbytes =>
        obtain ⟨rfl, rfl, rfl, rfl⟩ := hbytes
        cases h
        rfl
      · cases h
    · split at h
      · next hbytes =>
        obtain ⟨rfl, rfl, rfl, hmiddle⟩ := hbytes
        cases hmiddle
        cases h
        rfl
      · cases h
    · cases h
  · rintro rfl
    cases truth <;> rfl

/-- Both booleans begin with one of two letters. -/
theorem booleanOf?_eq_none {b : UInt8} (htf : ¬(b = 0x74 ∨ b = 0x66)) (rest : Word) :
    booleanOf? (b :: rest) = none := by
  refine Option.eq_none_iff_forall_ne_some.mpr fun truth h => htf ?_
  have hword := booleanOf?_eq_some_iff.mp h
  cases truth with
  | true => exact .inl (List.cons.inj hword).1
  | false => exact .inr (List.cons.inj hword).1

/-! ## Words -/

namespace Token

/-- A word read as a number. -/
def ofNumeral (policy : UnknownTokens) (w : Word) : Except Fault Token :=
  match numberOf? w with
  | some n => .ok (.number n)
  | none =>
    match policy with
    | .strict => .error (.malformedNumber w)
    | .lenient => .ok (.operator .noOp)

/-- A word read as the name of an operator. -/
def ofName (policy : UnknownTokens) (w : Word) : Except Fault Token :=
  match Operator.ofWord w, policy with
  | .noOp, .strict => .error (.undefined w)
  | op, _ => .ok (.operator op)

/-- The meaning of a word. -/
def ofWord (policy : UnknownTokens) (w : Word) : Except Fault Token :=
  match w.head? with
  | none => ofName policy w
  | some b =>
    if isBrace b then .ok (.operator (Operator.ofWord w))
    else if b = 0x74 ∨ b = 0x66 then
      match booleanOf? w with
      | some truth => .ok (.boolean truth)
      | none => ofName policy w
    else if b < 0x41 then ofNumeral policy w
    else ofName policy w

end Token

end TypeFour
