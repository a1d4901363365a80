import TypeFour.Proofs.Lenient

/-!
# `TypeFour.Proofs.Spelling` — the words that are read as names

Operators are found by following a word down a tree of letters. The tree is set against the table of names: a
word leads to an operator exactly when it has the bytes of the operator's name, the first of them in either
case. So no word leads to two operators, and every name leads to its own. The two booleans begin as names do and
are no names; they are known by all their bytes, in small letters only.

## Contents
- `Operator.bytes`, `Operator.WrittenBy` — the words that write a name.
- `Operator.isSpelled_iff_writtenBy` — the letters of a name and its bytes.
- `Operator.ofWord_eq_iff`, `ofWord_bytes` — the tree and the table.
- `Token.ReadAsName`, `Token.readAsName_ofWord` — what a word that begins as names do is read as.
- `Operator.ofWord_eq_iff_writtenBy` — all of it; `ofWord_eq_iff_writtenBy_capitals` — capital letters.
-/

namespace TypeFour

/-! ## Words that write a name -/

/-- A capital letter turned into the small one. Any other byte stays as it is. -/
def smallByte (b : UInt8) : UInt8 :=
  if 0x41 ≤ b ∧ b ≤ 0x5A then b + 0x20 else b

namespace Operator

/-- The bytes of the operator's name. -/
def bytes (op : Operator) : Word :=
  op.letters.map fun c => UInt8.ofNat c.toNat

/-- The word has as many bytes as the operator's name. The first is that of the name but for its case, and the
others are those of the name. -/
structure WrittenBy (op : Operator) (w : Word) : Prop where
  length_eq : w.length = op.bytes.length
  first_eq : w.head?.map smallByte = op.bytes.head?.map smallByte
  others_eq : ∀ i, 0 < i → w[i]? = op.bytes[i]?

theorem latin_bytes (op : Operator) : latin op.bytes = op.letters := by
  cases op <;> rfl

/-- Bytes are told apart by the letters they stand for. -/
theorem ofNat_toNat_injective : Function.Injective fun b : UInt8 => Char.ofNat b.toNat := by
  intro b c h
  have hnat : (Char.ofNat b.toNat).toNat = (Char.ofNat c.toNat).toNat := congrArg Char.toNat h
  rw [toNat_ofNat_byte, toNat_ofNat_byte] at hnat
  exact UInt8.toNat_inj.mp hnat

theorem latin_injective : Function.Injective latin :=
  List.map_injective_iff.mpr ofNat_toNat_injective

/-- The first letter made small, as a letter and as a byte. -/
theorem toLower_latin (b : UInt8) : (Char.ofNat b.toNat).toLower = Char.ofNat (smallByte b).toNat := by
  have hbytes : ∀ n : Fin 256, (Char.ofNat n).toLower = Char.ofNat (smallByte (UInt8.ofFin n)).toNat := by
    decide +kernel
  exact hbytes b.toFin

/-- A name has a first letter, which is small. -/
theorem exists_bytes (op : Operator) : ∃ a as, op.bytes = a :: as ∧ smallByte a = a := by
  cases op <;> exact ⟨_, _, rfl, rfl⟩

theorem writtenBy_cons_iff {op : Operator} {a b : UInt8} {as bs : Word} (h : op.bytes = a :: as) :
    op.WrittenBy (b :: bs) ↔ smallByte b = smallByte a ∧ bs = as := by
  constructor
  · rintro ⟨-, hfirst, hothers⟩
    rw [h] at hfirst hothers
    exact ⟨Option.some.inj hfirst, List.ext_getElem? fun i => hothers (i + 1) i.succ_pos⟩
  · rintro ⟨hfirst, rfl⟩
    refine ⟨by rw [h]; rfl, by rw [h]; exact congrArg some hfirst, fun i hi => ?_⟩
    obtain ⟨i, rfl⟩ := Nat.exists_eq_succ_of_ne_zero (Nat.ne_of_gt hi)
    rw [h]
    rfl

/-- **A word spells an operator** when it writes its name. -/
theorem isSpelled_iff_writtenBy {op : Operator} {w : Word} : op.isSpelled (latin w) = true ↔ op.WrittenBy w := by
  obtain ⟨a, as, hbytes, hsmall⟩ := op.exists_bytes
  have hletters : op.letters = Char.ofNat a.toNat :: latin as := by
    rw [← latin_bytes, hbytes]
    rfl
  unfold isSpelled
  rw [hletters]
  cases w with
  | nil =>
    constructor
    · intro h
      cases h
    · intro h
      have hlength := h.length_eq
      rw [hbytes] at hlength
      cases hlength
  | cons b bs =>
    have hlatin : latin (b :: bs) = Char.ofNat b.toNat :: latin bs := rfl
    have hfirst : (Char.ofNat b.toNat).toLower = Char.ofNat a.toNat ↔ smallByte b = smallByte a := by
      rw [toLower_latin, hsmall]
      exact ofNat_toNat_injective.eq_iff
    rw [writtenBy_cons_iff hbytes, hlatin]
    simp only [Bool.and_eq_true, beq_iff_eq, hfirst, latin_injective.eq_iff]

theorem ofWord_eq_iff {op : Operator} (hop : op ≠ noOp) {w : Word} : ofWord w = op ↔ op.WrittenBy w := by
  rw [← isSpelled_iff_writtenBy]
  constructor
  · rintro rfl
    exact isSpelled_ofWord hop
  · exact ofWord_of_isSpelled hop

theorem writtenBy_bytes (op : Operator) : op.WrittenBy op.bytes :=
  ⟨rfl, rfl, fun _ _ => rfl⟩

/-- The name of an operator is read as the operator. That of `noOp` names nothing, which is `noOp` again. -/
theorem ofWord_bytes (op : Operator) : ofWord op.bytes = op := by
  by_cases hop : op = noOp
  · subst hop
    rfl
  · exact (ofWord_eq_iff hop).mpr op.writtenBy_bytes

end Operator

/-! ## Words that begin as names do -/

namespace Token

/-- What comes of a word that begins as names do: a boolean or an operator when the word is one's name, and
what the policy says otherwise. -/
structure ReadAsName (policy : UnknownTokens) (w : Word) (r : Except Fault Token) : Prop where
  boolean : ∀ truth, r = .ok (.boolean truth) ↔ w = booleanWord truth
  operator : ∀ op, op ≠ .noOp → (r = .ok (.operator op) ↔ Operator.ofWord w = op)
  issue : (∀ truth, w ≠ booleanWord truth) → Operator.ofWord w = .noOp →
    r = match policy with
      | .strict => .error (.undefined w)
      | .lenient => .ok (.operator .noOp)

/-- No boolean is the name of an operator. -/
theorem ofWord_booleanWord (truth : Bool) : Operator.ofWord (booleanWord truth) = .noOp := by
  cases truth <;> rfl

theorem readAsName_booleanWord (policy : UnknownTokens) (truth : Bool) :
    ReadAsName policy (booleanWord truth) (.ok (.boolean truth)) where
  boolean other := by
    constructor
    · rintro ⟨⟩
      rfl
    · intro h
      have hsome := booleanOf?_eq_some_iff.mpr h
      rw [booleanOf?_eq_some_iff.mpr rfl] at hsome
      cases hsome
      rfl
  operator op hop := by
    rw [ofWord_booleanWord]
    exact iff_of_false (fun h => nomatch h) hop.symm
  issue hne _ := absurd rfl (hne truth)

theorem ofName_ne_boolean (policy : UnknownTokens) (w : Word) (truth : Bool) :
    ofName policy w ≠ .ok (.boolean truth) := by
  intro h
  cases eq_of_ofName h

theorem readAsName_ofName {w : Word} (hw : ∀ truth, w ≠ booleanWord truth) (policy : UnknownTokens) :
    ReadAsName policy w (ofName policy w) where
  boolean truth := iff_of_false (ofName_ne_boolean policy w truth) (hw truth)
  operator op hop := by
    constructor
    · intro h
      cases eq_of_ofName h
      rfl
    · rintro rfl
      exact ofName_of_ne hop policy
  issue _ hno := by
    unfold ofName
    rw [hno]
    cases policy <;> rfl

/-- **A word that begins as names do** is tried as a boolean and then as a name. -/
theorem readAsName_ofWord {b : UInt8} (hb : 0x41 ≤ b) (hbrace : TypeFour.isBrace b = false)
    (policy : UnknownTokens) (rest : Word) : ReadAsName policy (b :: rest) (ofWord policy (b :: rest)) := by
  rw [ofWord_name hbrace (UInt8.not_lt.mpr hb)]
  cases hbool : booleanOf? (b :: rest) with
  | some truth =>
    rw [booleanOf?_eq_some_iff.mp hbool]
    exact readAsName_booleanWord policy truth
  | none =>
    refine readAsName_ofName (fun truth hword => ?_) policy
    rw [booleanOf?_eq_some_iff.mpr hword] at hbool
    cases hbool

end Token

/-! ## Names and booleans -/

/-- **Names and booleans.** A word is read as an operator exactly when it writes the operator's name, so it is
read as one only, and every name is read as its operator. A word that begins as names do is one of the two
booleans, an operator, or whatever the policy makes of what names nothing. -/
theorem Operator.ofWord_eq_iff_writtenBy (w : Word) :
    (∀ op, op ≠ .noOp → (ofWord w = op ↔ op.WrittenBy w)) ∧
      (∀ op op' : Operator, op ≠ .noOp → op' ≠ .noOp → op.WrittenBy w → op'.WrittenBy w → op = op') ∧
      (∀ op : Operator, ofWord op.bytes = op) ∧
      ∀ b ∈ w.head?, 0x41 ≤ b → isBrace b = false →
        ∀ policy, Token.ReadAsName policy w (Token.ofWord policy w) := by
  refine ⟨fun op hop => ofWord_eq_iff hop, fun op op' hop hop' h h' => ?_, ofWord_bytes,
    fun b hb hletter hbrace policy => ?_⟩
  · exact ((ofWord_eq_iff hop).mpr h).symm.trans ((ofWord_eq_iff hop').mpr h')
  · obtain ⟨rest, rfl⟩ := List.head?_eq_some_iff.mp hb
    exact Token.readAsName_ofWord hletter hbrace policy rest

/-! ### Capital letters -/

/-- The bytes of `Ifelse`. -/
def oneCapital : Word :=
  [0x49, 0x66, 0x65, 0x6C, 0x73, 0x65]

/-- The bytes of `IFELSE`. -/
def allCapitals : Word :=
  [0x49, 0x46, 0x45, 0x4C, 0x53, 0x45]

/-- `Ifelse` is the operator, and `IFELSE` writes the name of none. -/
theorem Operator.ofWord_eq_iff_writtenBy_capitals :
    ifElse.WrittenBy oneCapital ∧ Token.ofWord .strict oneCapital = .ok (.operator .ifElse) ∧
      (∀ op : Operator, op ≠ .noOp → ¬op.WrittenBy allCapitals) ∧
      Token.ofWord .strict allCapitals = .error (.undefined allCapitals) := by
  have hone : Token.ReadAsName .strict oneCapital (Token.ofWord .strict oneCapital) :=
    (ofWord_eq_iff_writtenBy oneCapital).2.2.2 0x49 rfl (by decide) rfl .strict
  have hall : Token.ReadAsName .strict allCapitals (Token.ofWord .strict allCapitals) :=
    (ofWord_eq_iff_writtenBy allCapitals).2.2.2 0x49 rfl (by decide) rfl .strict
  refine ⟨((ofWord_eq_iff_writtenBy oneCapital).1 .ifElse (by decide)).mp rfl,
    (hone.operator .ifElse (by decide)).mpr rfl, fun op hop hwritten => hop ?_, hall.issue (fun truth => ?_) rfl⟩
  · exact (((ofWord_eq_iff_writtenBy allCapitals).1 op hop).mpr hwritten).symm
  · cases truth <;> decide

end TypeFour
