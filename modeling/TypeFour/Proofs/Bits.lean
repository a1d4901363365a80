import Mathlib.Data.Int.Bitwise
import TypeFour.Proofs.Bound
import TypeFour.Proofs.Remainder

/-!
# `TypeFour.Proofs.Bits` — the operators on binary digits

`and`, `or`, `xor` and `not` are logical on truths and bitwise on integers, a negative integer having infinitely
many ones in front. An integer has at most 53 digits behind its sign exactly when all its digits from the 53rd on
are alike, and digit by digit the operators keep that. So on such integers no step loses anything: the integers are
64-bit integers, their digits are combined by the machine, and the outcome is a float again without rounding. As
each digit of the outcome depends on the same digit of the operands only, whatever holds of truths holds of such
integers, however many of these operators are run one after the other.

## Contents
- `FitsDigits`, `fitsDigits_iff_testBit` — integers of at most 53 digits, by their binary digits.
- `testBit_toInt` — the digits of a 64-bit integer.
- `Connective`, `onIntegers_testBit`, `toInt_onWords` — the operators on two truths, two integers, two words.
- `BitTerm`, `BitTerm.onIntegers_congr` — expressions, and the laws that carry over from truths to integers.
- `BitTerm.replay_instructions` — what running an expression leaves.
- `execute_bitwise` — all of it; `execute_bitwise_deMorgan` — a law at the ends of the range.
-/

namespace TypeFour

open Binary64

/-! ## Binary digits -/

/-- Integers are told apart by their digits. -/
theorem eq_of_testBit {m n : ℤ} (h : ∀ i, m.testBit i = n.testBit i) : m = n := by
  -- one with zeros in front differs from one with ones in front where both have only those left
  have hfront (m n : ℕ) : Nat.testBit m (m + n) ≠ !Nat.testBit n (m + n) := by
    have hlt : m + n < 2 ^ (m + n) := Nat.lt_two_pow_self
    rw [Nat.testBit_lt_two_pow (by omega), Nat.testBit_lt_two_pow (by omega)]
    decide
  cases m with
  | ofNat m =>
    cases n with
    | ofNat n => exact congrArg Int.ofNat (Nat.eq_of_testBit_eq h)
    | negSucc n => exact absurd (h (m + n)) (hfront m n)
  | negSucc m =>
    cases n with
    | ofNat n => exact absurd (h (n + m)).symm (hfront n m)
    | negSucc n => exact congrArg Int.negSucc (Nat.eq_of_testBit_eq fun i => Bool.not_inj (h i))

/-- A word whose first bit is one is the complement of what it stands for, less one. -/
theorem toInt_of_msb {x : BitVec 64} (h : x.msb = true) : x.toInt = Int.negSucc (~~~x).toNat := by
  have hlt := x.isLt
  rw [BitVec.toInt_eq_msb_cond, if_pos h, BitVec.toNat_not, Int.negSucc_eq]
  omega

/-- The digits of a 64-bit integer. From the last on they are all alike. -/
theorem testBit_toInt (x : Int64) (i : ℕ) : x.toInt.testBit i = x.toBitVec.getLsbD (min i 63) := by
  show x.toBitVec.toInt.testBit i = _
  generalize x.toBitVec = x
  have hlast : x.msb = x.getLsbD 63 := BitVec.msb_eq_getLsbD_last x
  cases hmsb : x.msb with
  | false =>
    rw [BitVec.toInt_eq_toNat_of_msb hmsb]
    show x.getLsbD i = _
    rcases Nat.lt_or_ge i 64 with hi | hi
    · rw [Nat.min_eq_left (by omega)]
    · rw [Nat.min_eq_right (by omega), ← hlast, hmsb, BitVec.getLsbD_of_ge x i hi]
  | true =>
    rw [toInt_of_msb hmsb]
    show (!(~~~x).getLsbD i) = _
    rcases Nat.lt_or_ge i 64 with hi | hi
    · rw [Nat.min_eq_left (by omega), BitVec.getLsbD_not]
      simp [hi]
    · rw [Nat.min_eq_right (by omega), ← hlast, hmsb, BitVec.getLsbD_of_ge _ i hi]
      rfl

/-- An integer of at most 53 binary digits with a sign. -/
def FitsDigits (n : ℤ) : Prop :=
  -2 ^ 53 ≤ n ∧ n < 2 ^ 53

instance (n : ℤ) : Decidable (FitsDigits n) :=
  inferInstanceAs (Decidable (_ ∧ _))

theorem lt_iff_testBit {m k : ℕ} : m < 2 ^ k ↔ ∀ i, k ≤ i → m.testBit i = m.testBit k := by
  constructor
  · intro hm i hi
    have hlt : m < 2 ^ i := Nat.lt_of_lt_of_le hm (Nat.pow_le_pow_right Nat.two_pos hi)
    rw [Nat.testBit_lt_two_pow hlt, Nat.testBit_lt_two_pow hm]
  · intro halike
    -- far in front there are only zeros
    have hfront : m.testBit (k + m) = false := by
      have hlt : k + m < 2 ^ (k + m) := Nat.lt_two_pow_self
      exact Nat.testBit_lt_two_pow (by omega)
    apply Nat.lt_pow_two_of_testBit
    intro i hi
    rw [halike i hi, ← halike (k + m) (Nat.le_add_right k m), hfront]

/-- **At most 53 digits**: those in front are all alike. -/
theorem fitsDigits_iff_testBit {n : ℤ} : FitsDigits n ↔ ∀ i, 53 ≤ i → n.testBit i = n.testBit 53 := by
  unfold FitsDigits
  cases n with
  | ofNat m =>
    have hlt : -2 ^ 53 ≤ Int.ofNat m ∧ Int.ofNat m < 2 ^ 53 ↔ m < 2 ^ 53 := by
      rw [Int.ofNat_eq_natCast]
      omega
    rw [hlt, lt_iff_testBit]
    rfl
  | negSucc m =>
    have hlt : -2 ^ 53 ≤ Int.negSucc m ∧ Int.negSucc m < 2 ^ 53 ↔ m < 2 ^ 53 := by
      rw [Int.negSucc_eq]
      omega
    rw [hlt, lt_iff_testBit]
    show _ ↔ ∀ i, 53 ≤ i → (!m.testBit i) = !m.testBit 53
    simp only [Bool.not_inj_iff]

theorem FitsDigits.short {n : ℤ} (h : FitsDigits n) : Short n := by
  obtain ⟨hlow, hhigh⟩ := h
  rcases Int.lt_or_eq_of_le hlow with hlow | rfl
  · exact .of_lt (by omega)
  · exact ⟨1, 53, by norm_num, by norm_num⟩

/-! ## Two operands -/

/-- The operators on two truths or on two integers. -/
inductive Connective where
  | and
  | or
  | xor

namespace Connective

def operator : Connective → Operator
  | and => .and
  | or => .or
  | xor => .xor

/-- The truth made of two. -/
def onTruths : Connective → Bool → Bool → Bool
  | and => (· && ·)
  | or => (· || ·)
  | xor => (· ^^ ·)

/-- The integer whose digits are made of those of two. -/
def onIntegers : Connective → ℤ → ℤ → ℤ
  | and => Int.land
  | or => Int.lor
  | xor => Int.xor

/-- What the machine does to two 64-bit integers. -/
def onWords : Connective → Int64 → Int64 → Int64
  | and => (· &&& ·)
  | or => (· ||| ·)
  | xor => (· ^^^ ·)

theorem behaviour_operator (e : Elementary) (c : Connective) :
    c.operator.behaviour e = .plain (Behaviour.logical c.onTruths c.onWords) := by
  cases c <;> rfl

theorem onIntegers_testBit (c : Connective) (m n : ℤ) (i : ℕ) :
    (c.onIntegers m n).testBit i = c.onTruths (m.testBit i) (n.testBit i) := by
  cases c with
  | and => exact Int.testBit_land m n i
  | or => exact Int.testBit_lor m n i
  | xor => exact Int.testBit_lxor m n i

theorem onWords_testBit (c : Connective) (a b : Int64) (i : ℕ) :
    (c.onWords a b).toInt.testBit i = c.onTruths (a.toInt.testBit i) (b.toInt.testBit i) := by
  cases c with
  | and => simp [onWords, onTruths, testBit_toInt]
  | or => simp [onWords, onTruths, testBit_toInt]
  | xor => simp [onWords, onTruths, testBit_toInt]

/-- **The machine computes the digits of the integers.** -/
theorem toInt_onWords (c : Connective) (a b : Int64) :
    (c.onWords a b).toInt = c.onIntegers a.toInt b.toInt := by
  apply eq_of_testBit
  intro i
  rw [onWords_testBit, onIntegers_testBit]

theorem fitsDigits_onIntegers (c : Connective) {m n : ℤ} (hm : FitsDigits m) (hn : FitsDigits n) :
    FitsDigits (c.onIntegers m n) := by
  rw [fitsDigits_iff_testBit] at hm hn ⊢
  intro i hi
  rw [onIntegers_testBit, onIntegers_testBit, hm i hi, hn i hi]

end Connective

theorem toInt_complement (a : Int64) : (~~~a).toInt = Int.lnot a.toInt := by
  apply eq_of_testBit
  intro i
  rw [Int.testBit_lnot, testBit_toInt, testBit_toInt]
  simp

theorem fitsDigits_lnot {n : ℤ} (hn : FitsDigits n) : FitsDigits (Int.lnot n) := by
  rw [fitsDigits_iff_testBit] at hn ⊢
  intro i hi
  rw [Int.testBit_lnot, Int.testBit_lnot, hn i hi]

/-! ## Expressions -/

/-- What is made of operands by these operators. -/
inductive BitTerm where
  | operand (i : ℕ)
  | complement (t : BitTerm)
  | joined (c : Connective) (t u : BitTerm)

namespace BitTerm

/-- The truth that it makes of truths. -/
def onTruths (b : ℕ → Bool) : BitTerm → Bool
  | operand i => b i
  | complement t => !t.onTruths b
  | joined c t u => c.onTruths (t.onTruths b) (u.onTruths b)

/-- The integer that it makes of integers. -/
def onIntegers (n : ℕ → ℤ) : BitTerm → ℤ
  | operand i => n i
  | complement t => Int.lnot (t.onIntegers n)
  | joined c t u => c.onIntegers (t.onIntegers n) (u.onIntegers n)

/-- The instructions that make it of numbers: what comes first is pushed first. -/
def instructions (x : ℕ → Float) : BitTerm → List Instruction
  | operand i => [.number (x i)]
  | complement t => t.instructions x ++ [.operator .not]
  | joined c t u => t.instructions x ++ u.instructions x ++ [.operator c.operator]

/-- How many values the instructions have on the stack at once. -/
def room : BitTerm → ℕ
  | operand _ => 1
  | complement t => t.room
  | joined _ t u => max t.room (u.room + 1)

/-- Each digit is the truth that is made of the same digit of the operands. -/
theorem testBit_onIntegers (t : BitTerm) (n : ℕ → ℤ) (i : ℕ) :
    (t.onIntegers n).testBit i = t.onTruths fun j => (n j).testBit i := by
  induction t with
  | operand j => rfl
  | complement t ih => rw [onIntegers, Int.testBit_lnot, ih, onTruths]
  | joined c t u iht ihu => rw [onIntegers, c.onIntegers_testBit, iht, ihu, onTruths]

/-- **Laws of truths** are laws of integers. -/
theorem onIntegers_congr {t u : BitTerm} (h : ∀ b, t.onTruths b = u.onTruths b) (n : ℕ → ℤ) :
    t.onIntegers n = u.onIntegers n := by
  apply eq_of_testBit
  intro i
  rw [testBit_onIntegers, testBit_onIntegers, h]

theorem room_pos (t : BitTerm) : 0 < t.room := by
  induction t with
  | operand i => exact Nat.one_pos
  | complement t ih => exact ih
  | joined c t u iht _ => exact Nat.lt_of_lt_of_le iht (Nat.le_max_left _ _)

end BitTerm

/-! ## The operators -/

/-- Without its fraction, `x` is the integer `a`, which has at most 53 digits. -/
structure StandsFor (x : Float) (a : ℤ) : Prop where
  finite : x.isFinite = true
  integerPart_eq : integerPart (value x) = a
  fits : FitsDigits a

/-- `x` is the integer `a`, which has at most 53 digits. -/
structure IsInteger (x : Float) (a : ℤ) : Prop where
  finite : x.isFinite = true
  value_eq : value x = a
  fits : FitsDigits a

theorem IsInteger.standsFor {x : Float} {a : ℤ} (h : IsInteger x a) : StandsFor x a where
  finite := h.finite
  integerPart_eq := by rw [h.value_eq, integerPart_intCast]
  fits := h.fits

theorem StandsFor.toInt_toInt64 {x : Float} {a : ℤ} (h : StandsFor x a) : (toInt64 x).toInt = a := by
  obtain ⟨hlow, hhigh⟩ := h.fits
  rw [toInt64_eq h.finite, h.integerPart_eq, toInt_ofIntClamp_of_lt (by omega) (by omega)]

/-- A 64-bit integer of at most 53 digits is a float as it is. -/
theorem isInteger_ofInt64 {i : Int64} {n : ℤ} (hi : i.toInt = n) (hn : FitsDigits n) : IsInteger (ofInt64 i) n where
  finite := isFinite_ofInt64 i
  value_eq := by
    subst hi
    exact value_ofInt64 hn.short
  fits := hn

/-- Both are numbers, or both are truths. -/
def OfOneKind (v w : Value) : Prop :=
  (∃ x y, v = .number x ∧ w = .number y) ∨ ∃ a b, v = .boolean a ∧ w = .boolean b

section

variable {e : Elementary} {again : List Instruction → Stack → Run} {items : List Value} {limit : Option Nat}

/-- The operator leaves an integer of at most 53 digits in the place of some values at the top. -/
def LeavesInteger (e : Elementary) (again : List Instruction → Stack → Run) (op : Operator) (vs items : List Value)
    (limit : Option Nat) (n : ℤ) : Prop :=
  ∃ r, IsInteger r n ∧ execute e again op ⟨vs ++ items, limit⟩ = some (.ok () ⟨.number r :: items, limit⟩)

theorem execute_connective (c : Connective) (s : Stack) :
    execute e again c.operator s = some (Behaviour.logical c.onTruths c.onWords s) := by
  rw [execute, c.behaviour_operator]

/-- **Two integers** are joined digit by digit. -/
theorem leaves_connective (c : Connective) {x y : Float} {a b : ℤ} (hx : StandsFor x a) (hy : StandsFor y b)
    (hroom : Stack.hasRoom ⟨items, limit⟩ 1 = true) :
    LeavesInteger e again c.operator [.number y, .number x] items limit (c.onIntegers a b) := by
  have hword : (c.onWords (toInt64 x) (toInt64 y)).toInt = c.onIntegers a b := by
    rw [c.toInt_onWords, hx.toInt_toInt64, hy.toInt_toInt64]
  refine ⟨ofInt64 (c.onWords (toInt64 x) (toInt64 y)),
    isInteger_ofInt64 hword (c.fitsDigits_onIntegers hx.fits hy.fits), ?_⟩
  rw [execute_connective]
  show some (Stack.push _ ⟨items, limit⟩) = _
  rw [Stack.push_of_hasRoom hroom Nat.one_pos]

/-- **One integer** is complemented digit by digit. -/
theorem leaves_complement {x : Float} {a : ℤ} (hx : StandsFor x a)
    (hroom : Stack.hasRoom ⟨items, limit⟩ 1 = true) :
    LeavesInteger e again .not [.number x] items limit (Int.lnot a) := by
  have hword : (~~~toInt64 x).toInt = Int.lnot a := by
    rw [toInt_complement, hx.toInt_toInt64]
  refine ⟨ofInt64 (~~~toInt64 x), isInteger_ofInt64 hword (fitsDigits_lnot hx.fits), ?_⟩
  show some (Stack.push _ ⟨items, limit⟩) = _
  rw [Stack.push_of_hasRoom hroom Nat.one_pos]

/-- **Operands of two kinds**, or a procedure, are refused. -/
theorem execute_connective_of_kinds (c : Connective) {v w : Value} (h : ¬OfOneKind v w) :
    ∃ t, execute e again c.operator ⟨w :: v :: items, limit⟩ = some (.error .typeCheck t) := by
  rw [execute_connective]
  cases w with
  | procedure p => exact ⟨_, rfl⟩
  | number y =>
    cases v with
    | number x => exact absurd (.inl ⟨x, y, rfl, rfl⟩) h
    | boolean a => exact ⟨_, rfl⟩
    | procedure p => exact ⟨_, rfl⟩
  | boolean b =>
    cases v with
    | number x => exact ⟨_, rfl⟩
    | boolean a => exact absurd (.inr ⟨a, b, rfl, rfl⟩) h
    | procedure p => exact ⟨_, rfl⟩

/-! ## Runs -/

namespace BitTerm

variable {x : ℕ → Float} {n : ℕ → ℤ}

/-- One operator after the others. -/
theorem runAll_concat {is : List Instruction} {op : Operator} {s : Stack} {m : ℤ} (vs : List Value)
    (his : runAll (perform e again) is s = some (.ok () ⟨vs ++ items, limit⟩))
    (hop : LeavesInteger e again op vs items limit m) :
    ∃ r, IsInteger r m ∧
      runAll (perform e again) (is ++ [.operator op]) s = some (.ok () ⟨.number r :: items, limit⟩) := by
  obtain ⟨r, hr, hexecute⟩ := hop
  refine ⟨r, hr, ?_⟩
  rw [runAll_append, his]
  exact runAll_cons_of_ok hexecute

/-- **Running an expression** leaves the integer that it makes. -/
theorem runAll_instructions (hx : ∀ i, IsInteger (x i) (n i)) (t : BitTerm)
    (hroom : Stack.hasRoom ⟨items, limit⟩ t.room = true) :
    ∃ r, IsInteger r (t.onIntegers n) ∧
      runAll (perform e again) (t.instructions x) ⟨items, limit⟩ = some (.ok () ⟨.number r :: items, limit⟩) := by
  induction t generalizing items with
  | operand i =>
    refine ⟨x i, hx i, runAll_cons_of_ok ?_⟩
    exact congrArg some (Stack.push_of_hasRoom hroom Nat.one_pos _)
  | complement t ih =>
    obtain ⟨r, hr, hrun⟩ := ih hroom
    have hone : Stack.hasRoom ⟨items, limit⟩ 1 = true :=
      Stack.hasRoom_of_le hroom (Nat.add_le_add_left t.room_pos _)
    exact runAll_concat [.number r] hrun (leaves_complement hr.standsFor hone)
  | joined c t u iht ihu =>
    have hleft : Stack.hasRoom ⟨items, limit⟩ t.room = true :=
      Stack.hasRoom_of_le hroom (Nat.add_le_add_left (Nat.le_max_left _ _) _)
    obtain ⟨r, hr, hrun⟩ := iht hleft
    -- the right side runs on top of what the left side has left
    have hright : Stack.hasRoom ⟨.number r :: items, limit⟩ u.room = true := by
      refine Stack.hasRoom_of_le hroom ?_
      rw [List.length_cons, room]
      omega
    obtain ⟨r', hr', hrun'⟩ := ihu hright
    have hone : Stack.hasRoom ⟨items, limit⟩ 1 = true :=
      Stack.hasRoom_of_le hleft (Nat.add_le_add_left t.room_pos _)
    have hboth : runAll (perform e again) (t.instructions x ++ u.instructions x) ⟨items, limit⟩ =
        some (.ok () ⟨[.number r', .number r] ++ items, limit⟩) := by
      rw [runAll_append, hrun]
      exact hrun'
    exact runAll_concat [.number r', .number r] hboth (leaves_connective c hr.standsFor hr'.standsFor hone)

theorem replay_instructions (e : Elementary) (bound : ℕ) (hx : ∀ i, IsInteger (x i) (n i)) (t : BitTerm)
    (hroom : Stack.hasRoom ⟨items, limit⟩ t.room = true) :
    ∃ r, IsInteger r (t.onIntegers n) ∧
      replay e (bound + 1) (t.instructions x) ⟨items, limit⟩ = some (.ok () ⟨.number r :: items, limit⟩) :=
  t.runAll_instructions hx hroom

end BitTerm

end

/-- **The operators on binary digits.** On two numbers that are integers of at most 53 digits, fractions aside,
`and`, `or` and `xor` leave the integer made of their digits, and on one such number `not` leaves its complement;
what they leave is exact and has at most 53 digits again. On truths they are the logical operations. Two operands
of different kinds, or a procedure among them, fail with `typeCheck`. Two expressions that make the same truth of
any truths leave the same integer when they are run on integers of at most 53 digits. -/
theorem execute_bitwise (e : Elementary) (again : List Instruction → Stack → Run) (bound : ℕ) (items : List Value)
    (limit : Option Nat) (hroom : Stack.hasRoom ⟨items, limit⟩ 1 = true) :
    (∀ (c : Connective) (x y : Float) (a b : ℤ), StandsFor x a → StandsFor y b →
      LeavesInteger e again c.operator [.number y, .number x] items limit (c.onIntegers a b)) ∧
    (∀ (x : Float) (a : ℤ), StandsFor x a →
      LeavesInteger e again .not [.number x] items limit (Int.lnot a)) ∧
    (∀ (c : Connective) (a b : Bool), execute e again c.operator ⟨.boolean b :: .boolean a :: items, limit⟩ =
      some (.ok () ⟨.boolean (c.onTruths a b) :: items, limit⟩)) ∧
    (∀ b : Bool, execute e again .not ⟨.boolean b :: items, limit⟩ =
      some (.ok () ⟨.boolean (!b) :: items, limit⟩)) ∧
    (∀ (c : Connective) (v w : Value), ¬OfOneKind v w →
      ∃ t, execute e again c.operator ⟨w :: v :: items, limit⟩ = some (.error .typeCheck t)) ∧
    ∀ t u : BitTerm, (∀ b, t.onTruths b = u.onTruths b) → ∀ (x : ℕ → Float) (n : ℕ → ℤ),
      (∀ i, IsInteger (x i) (n i)) → Stack.hasRoom ⟨items, limit⟩ (max t.room u.room) = true →
      ∃ r r', IsInteger r (t.onIntegers n) ∧ IsInteger r' (t.onIntegers n) ∧
        replay e (bound + 1) (t.instructions x) ⟨items, limit⟩ = some (.ok () ⟨.number r :: items, limit⟩) ∧
        replay e (bound + 1) (u.instructions x) ⟨items, limit⟩ = some (.ok () ⟨.number r' :: items, limit⟩) := by
  refine ⟨fun c x y a b hx hy => leaves_connective c hx hy hroom, fun x a hx => leaves_complement hx hroom,
    fun c a b => ?_, fun b => ?_, fun c v w h => execute_connective_of_kinds c h, ?_⟩
  · rw [execute_connective]
    show some (Stack.push _ ⟨items, limit⟩) = _
    rw [Stack.push_of_hasRoom hroom Nat.one_pos]
  · show some (Stack.push _ ⟨items, limit⟩) = _
    rw [Stack.push_of_hasRoom hroom Nat.one_pos]
  · intro t u hlaw x n hx hboth
    obtain ⟨r, hr, hrun⟩ := t.replay_instructions e bound hx
      (Stack.hasRoom_of_le hboth (Nat.add_le_add_left (Nat.le_max_left _ _) _))
    obtain ⟨r', hr', hrun'⟩ := u.replay_instructions e bound hx
      (Stack.hasRoom_of_le hboth (Nat.add_le_add_left (Nat.le_max_right _ _) _))
    rw [← BitTerm.onIntegers_congr hlaw] at hr'
    exact ⟨r, r', hr, hr', hrun, hrun'⟩

/-! ### A law at the ends of the range -/

/-- The least integer of at most 53 digits, and the greatest for every other operand. -/
def leastThenGreatest : ℕ → ℤ
  | 0 => -2 ^ 53
  | _ => 2 ^ 53 - 1

/-- The numbers that they are. -/
def leastThenGreatestNumber : ℕ → Float
  | 0 => -9007199254740992
  | _ => 9007199254740991

theorem isInteger_leastThenGreatest (i : ℕ) : IsInteger (leastThenGreatestNumber i) (leastThenGreatest i) := by
  have hleast : IsInteger (-9007199254740992) (-2 ^ 53) := by
    refine ⟨rfl, ?_, by decide⟩
    rw [value_of_unpack (s := .negative) (m := 2 ^ 52) (e := 1) (by decide) rfl]
    norm_num [Float.Model.UnpackedFloat.Sign.apply]
  have hgreatest : IsInteger 9007199254740991 (2 ^ 53 - 1) := by
    refine ⟨rfl, ?_, by decide⟩
    rw [value_of_unpack (s := .positive) (m := 2 ^ 53 - 1) (e := 0) (by decide) rfl]
    norm_num [Float.Model.UnpackedFloat.Sign.apply]
  cases i with
  | zero => exact hleast
  | succ i => exact hgreatest

/-- Not both. -/
def notBoth : BitTerm :=
  .complement (.joined .and (.operand 0) (.operand 1))

/-- One of them not. -/
def oneNot : BitTerm :=
  .joined .or (.complement (.operand 0)) (.complement (.operand 1))

/-- The two expressions of De Morgan's law make the same truth, and leave minus one for the two ends of the range.
Fractions are passed over, and a number beside a truth is refused. -/
theorem execute_bitwise_deMorgan :
    (∀ b, notBoth.onTruths b = oneNot.onTruths b) ∧ notBoth.onIntegers leastThenGreatest = -1 ∧
      (∃ r r', IsInteger r (-1) ∧ IsInteger r' (-1) ∧
        replay .machine 1 (notBoth.instructions leastThenGreatestNumber) ⟨[], some 2⟩ =
          some (.ok () ⟨[.number r], some 2⟩) ∧
        replay .machine 1 (oneNot.instructions leastThenGreatestNumber) ⟨[], some 2⟩ =
          some (.ok () ⟨[.number r'], some 2⟩)) ∧
      LeavesInteger .machine (replay .machine 0) .xor [.number 6.25, .number (-3.5)] [] (some 2) (-5) ∧
      ∃ t, execute .machine (replay .machine 0) .xor ⟨[.boolean true, .number 6.25], some 2⟩ =
        some (.error .typeCheck t) := by
  have hlaw : ∀ b, notBoth.onTruths b = oneNot.onTruths b := fun b => Bool.not_and (b 0) (b 1)
  have hvalue : notBoth.onIntegers leastThenGreatest = -1 := by decide +kernel
  have hthree : StandsFor (-3.5) (-3) :=
    ⟨rfl, integerPart_value (s := .negative) (m := 7 <<< 50) (e := -51) (by decide) rfl, by decide⟩
  have hsix : StandsFor 6.25 6 :=
    ⟨rfl, integerPart_value (s := .positive) (m := 25 <<< 48) (e := -50) (by decide) rfl, by decide⟩
  obtain ⟨hjoined, -, -, -, hkinds, hlaws⟩ := execute_bitwise .machine (replay .machine 0) 0 [] (some 2) rfl
  obtain ⟨r, r', hr, hr', hrun, hrun'⟩ :=
    hlaws notBoth oneNot hlaw _ _ isInteger_leastThenGreatest rfl
  rw [hvalue] at hr hr'
  refine ⟨hlaw, hvalue, ⟨r, r', hr, hr', hrun, hrun'⟩, hjoined .xor _ _ _ _ hthree hsix, hkinds .xor _ _ ?_⟩
  rintro (⟨x, y, -, hy⟩ | ⟨a, b, ha, -⟩)
  · cases hy
  · cases ha

end TypeFour
