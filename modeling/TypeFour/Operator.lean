/-!
# `TypeFour.Operator` — the operators and their spelling

The operators of calculator functions, in three groups: arithmetic, relational and bitwise,
conditional and stack. The two braces count as operators of the text, and `noOp` stands for a word
that means nothing.

## Contents
- `Operator`, `Operator.all` — the operators in order.
- `Operator.name` — the name shown for an operator.
- `Operator.ofWord` — the operator that a word of the text names.
- `Operator.isSpelled` — the words that spell a name; `isSpelled_ofWord`, `ofWord_of_isSpelled`.
-/

namespace TypeFour

/-- An operator of a calculator function. -/
inductive Operator where
  | abs | add | atan | ceiling | cos | cvi | cvr | div | exp | floor | idiv | ln | log | mod
  | mul | neg | round | sin | sqrt | sub | truncate
  | and | bitshift | eq | ge | gt | le | lt | ne | not | or | xor
  | ifTrue | ifElse | copy | dup | exch | index | pop | roll
  | openBrace | closeBrace | noOp
deriving DecidableEq, Repr

namespace Operator

/-- Every operator, in order. -/
def all : List Operator :=
  [.abs, .add, .atan, .ceiling, .cos, .cvi, .cvr, .div, .exp, .floor, .idiv, .ln, .log, .mod,
   .mul, .neg, .round, .sin, .sqrt, .sub, .truncate, .and, .bitshift, .eq, .ge, .gt, .le, .lt,
   .ne, .not, .or, .xor, .ifTrue, .ifElse, .copy, .dup, .exch, .index, .pop, .roll, .openBrace,
   .closeBrace, .noOp]

/-- The letters of an operator's name. -/
def letters : Operator → List Char
  | abs => ['a', 'b', 's']
  | add => ['a', 'd', 'd']
  | atan => ['a', 't', 'a', 'n']
  | ceiling => ['c', 'e', 'i', 'l', 'i', 'n', 'g']
  | cos => ['c', 'o', 's']
  | cvi => ['c', 'v', 'i']
  | cvr => ['c', 'v', 'r']
  | div => ['d', 'i', 'v']
  | exp => ['e', 'x', 'p']
  | floor => ['f', 'l', 'o', 'o', 'r']
  | idiv => ['i', 'd', 'i', 'v']
  | ln => ['l', 'n']
  | log => ['l', 'o', 'g']
  | mod => ['m', 'o', 'd']
  | mul => ['m', 'u', 'l']
  | neg => ['n', 'e', 'g']
  | round => ['r', 'o', 'u', 'n', 'd']
  | sin => ['s', 'i', 'n']
  | sqrt => ['s', 'q', 'r', 't']
  | sub => ['s', 'u', 'b']
  | truncate => ['t', 'r', 'u', 'n', 'c', 'a', 't', 'e']
  | and => ['a', 'n', 'd']
  | bitshift => ['b', 'i', 't', 's', 'h', 'i', 'f', 't']
  | eq => ['e', 'q']
  | ge => ['g', 'e']
  | gt => ['g', 't']
  | le => ['l', 'e']
  | lt => ['l', 't']
  | ne => ['n', 'e']
  | not => ['n', 'o', 't']
  | or => ['o', 'r']
  | xor => ['x', 'o', 'r']
  | ifTrue => ['i', 'f']
  | ifElse => ['i', 'f', 'e', 'l', 's', 'e']
  | copy => ['c', 'o', 'p', 'y']
  | dup => ['d', 'u', 'p']
  | exch => ['e', 'x', 'c', 'h']
  | index => ['i', 'n', 'd', 'e', 'x']
  | pop => ['p', 'o', 'p']
  | roll => ['r', 'o', 'l', 'l']
  | openBrace => ['\x7b']
  | closeBrace => ['\x7d']
  | noOp => ['n', 'o', 'p']

/-- The name shown for an operator. -/
def name (op : Operator) : String :=
  String.ofList op.letters

/-! ## Reading names -/

/-- The bytes of a word as characters of the same number. -/
def latin (word : List UInt8) : List Char :=
  word.map fun b => Char.ofNat b.toNat

/-- The operator with this name, whose first letter is given apart. The letters are followed down a tree, and
where they leave it no operator is meant. -/
def ofLetters (first : Char) (rest : List Char) : Operator :=
  match first with
  | 'a' =>
    match rest with
    | ['b', 's'] => abs
    | ['d', 'd'] => add
    | ['n', 'd'] => and
    | ['t', 'a', 'n'] => atan
    | _ => noOp
  | 'b' =>
    match rest with
    | ['i', 't', 's', 'h', 'i', 'f', 't'] => bitshift
    | _ => noOp
  | 'c' =>
    match rest with
    | ['o', 's'] => cos
    | ['v', 'i'] => cvi
    | ['v', 'r'] => cvr
    | ['o', 'p', 'y'] => copy
    | ['e', 'i', 'l', 'i', 'n', 'g'] => ceiling
    | _ => noOp
  | 'd' =>
    match rest with
    | ['i', 'v'] => div
    | ['u', 'p'] => dup
    | _ => noOp
  | 'e' =>
    match rest with
    | ['q'] => eq
    | ['x', 'p'] => exp
    | ['x', 'c', 'h'] => exch
    | _ => noOp
  | 'f' =>
    match rest with
    | ['l', 'o', 'o', 'r'] => floor
    | _ => noOp
  | 'g' =>
    match rest with
    | ['e'] => ge
    | ['t'] => gt
    | _ => noOp
  | 'i' =>
    match rest with
    | ['f'] => ifTrue
    | ['d', 'i', 'v'] => idiv
    | ['n', 'd', 'e', 'x'] => index
    | ['f', 'e', 'l', 's', 'e'] => ifElse
    | _ => noOp
  | 'l' =>
    match rest with
    | ['e'] => le
    | ['n'] => ln
    | ['t'] => lt
    | ['o', 'g'] => log
    | _ => noOp
  | 'm' =>
    match rest with
    | ['o', 'd'] => mod
    | ['u', 'l'] => mul
    | _ => noOp
  | 'n' =>
    match rest with
    | ['e'] => ne
    | ['e', 'g'] => neg
    | ['o', 't'] => not
    | _ => noOp
  | 'o' =>
    match rest with
    | ['r'] => or
    | _ => noOp
  | 'p' =>
    match rest with
    | ['o', 'p'] => pop
    | _ => noOp
  | 'r' =>
    match rest with
    | ['o', 'l', 'l'] => roll
    | ['o', 'u', 'n', 'd'] => round
    | _ => noOp
  | 's' =>
    match rest with
    | ['i', 'n'] => sin
    | ['u', 'b'] => sub
    | ['q', 'r', 't'] => sqrt
    | _ => noOp
  | 't' =>
    match rest with
    | ['r', 'u', 'n', 'c', 'a', 't', 'e'] => truncate
    | _ => noOp
  | 'x' =>
    match rest with
    | ['o', 'r'] => xor
    | _ => noOp
  | '\x7b' =>
    match rest with
    | [] => openBrace
    | _ => noOp
  | '\x7d' =>
    match rest with
    | [] => closeBrace
    | _ => noOp
  | _ => noOp

/-- The operator that a word names, its first letter in either case. A word that names none is `noOp`, whose
own name names nothing. -/
def ofWord (word : List UInt8) : Operator :=
  match latin word with
  | [] => noOp
  | c :: cs => ofLetters c.toLower cs

/-! ## Names that are read -/

/-- A byte keeps its number as a character. -/
theorem toNat_ofNat_byte (b : UInt8) : (Char.ofNat b.toNat).toNat = b.toNat := by
  have hall : ∀ n : Fin 256, (Char.ofNat n).toNat = n := by decide +kernel
  exact hall b.toFin

/-- `cs` spells the name of `op`: the first letter may be of either case, the others are as they
stand in the name. -/
def isSpelled (op : Operator) (cs : List Char) : Bool :=
  match op.letters, cs with
  | a :: as, c :: cs => c.toLower == a && cs == as
  | _, _ => false

/-- The tree leads to operators by their names only. -/
theorem letters_ofLetters {c : Char} {cs : List Char} (h : ofLetters c cs ≠ noOp) :
    (ofLetters c cs).letters = c :: cs := by
  unfold ofLetters at h ⊢
  -- by the first letter, and then by the others
  split at h
  all_goals first
    | exact absurd rfl h
    | split at h <;> first | rfl | exact absurd rfl h

/-- It leads to every operator. -/
theorem ofLetters_letters {op : Operator} (hop : op ≠ noOp) {c : Char} {cs : List Char}
    (h : op.letters = c :: cs) : ofLetters c cs = op := by
  cases op with
  | noOp => exact absurd rfl hop
  | _ =>
    cases h
    rfl

/-- A word that names an operator spells it. -/
theorem isSpelled_ofWord {w : List UInt8} (h : ofWord w ≠ noOp) : (ofWord w).isSpelled (latin w) = true := by
  unfold ofWord at h ⊢
  cases hw : latin w with
  | nil =>
    rw [hw] at h
    exact absurd rfl h
  | cons c cs =>
    rw [hw] at h
    simp only [isSpelled, letters_ofLetters h, beq_self_eq_true, Bool.and_self]

/-- A word that spells an operator names it. -/
theorem ofWord_of_isSpelled {op : Operator} (hop : op ≠ noOp) {w : List UInt8}
    (h : op.isSpelled (latin w) = true) : ofWord w = op := by
  unfold isSpelled at h
  split at h
  · next a as c cs hletters hw =>
    obtain ⟨hfirst, hrest⟩ := Bool.and_eq_true_iff.mp h
    unfold ofWord
    rw [hw]
    refine ofLetters_letters hop ?_
    rw [hletters, eq_of_beq hfirst, eq_of_beq hrest]
  · cases h

end Operator

end TypeFour
