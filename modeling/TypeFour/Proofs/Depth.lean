import TypeFour.Proofs.Phrase
import TypeFour.Proofs.Steps

/-!
# `TypeFour.Proofs.Depth` — how many braces are open

The depth of a session is what one gets by counting braces: an opening one adds one, a closing one takes one
away, and a closing one where none is open counts for nothing. It can be counted over the tokens, or over
the bytes of the text, as a brace is a word by itself and no other word has one in it.

## Contents
- `Token.depthAfter`, `accept_depth` — one token.
- `Matched`, `nesting` — tokens whose braces match, and how deep they nest.
- `depthAfterByte`, `leftOpen` — the count over bytes.
- `Token.ofWord_brace`, `Token.isBrace_of_run` — braces and other words.
- `Session.run_depth` — the depth after a text.
-/

namespace TypeFour

variable {e : Elementary} {n : Nat} {o : Options}

/-! ## Counting over tokens -/

/-- How many braces are open after a token, when `d` were before it. -/
def Token.depthAfter (d : Nat) : Token → Nat
  | .operator .openBrace => d + 1
  | .operator .closeBrace => d - 1
  | _ => d

theorem Token.brace_cases (t : Token) :
    t = .operator .openBrace ∨ t = .operator .closeBrace ∨ t.isBrace = false := by
  cases t with
  | number x => exact .inr (.inr rfl)
  | boolean b => exact .inr (.inr rfl)
  | operator op =>
    cases op with
    | openBrace => exact .inl rfl
    | closeBrace => exact .inr (.inl rfl)
    | _ => exact .inr (.inr rfl)

theorem Token.depthAfter_plain {t : Token} (h : t.isBrace = false) (d : Nat) : t.depthAfter d = d := by
  cases t with
  | number x => rfl
  | boolean b => rfl
  | operator op =>
    cases op with
    | openBrace => cases h
    | closeBrace => cases h
    | _ => rfl

/-- The braces among the tokens match, when `d` more have been opened before that the tokens close. -/
def Matched (d : Nat) : List Token → Prop
  | [] => d = 0
  | t :: ts => (t = .operator .closeBrace → d ≠ 0) ∧ Matched (t.depthAfter d) ts

/-- The most braces that are open at one moment, when `d` are before the tokens. -/
def nesting (d : Nat) : List Token → Nat
  | [] => d
  | t :: ts => max d (nesting (t.depthAfter d) ts)

theorem le_nesting (d : Nat) (ts : List Token) : d ≤ nesting d ts := by
  cases ts with
  | nil => exact Nat.le_refl d
  | cons t ts => exact Nat.le_max_left _ _

namespace Session

variable {s u : Session}

theorem deliver_depth {v : Value} (h : s.deliver v = .ok u) : u.depth = s.depth := by
  obtain ⟨_, _, -, rfl⟩ | ⟨-, _, -, rfl⟩ := deliver_ok h <;> rfl

theorem operate_depth {op : Operator} (h : s.operate e n op = some (.ok u)) : u.depth = s.depth := by
  obtain ⟨_, _, -, rfl⟩ | ⟨-, _, -, rfl⟩ := operate_ok h <;> rfl

theorem openBlock_depth (h : s.openBlock o = .ok u) : u.depth = s.depth + 1 := by
  obtain ⟨-, rfl⟩ := openBlock_ok h
  rfl

theorem closeBlock_depth (h : s.closeBlock o = .ok u) : u.depth = s.depth - 1 := by
  obtain ⟨hd, -, rfl⟩ | ⟨hd, rfl⟩ | ⟨d, hd, ⟨-, rfl⟩ | ⟨_, _, _, -, -, rfl⟩⟩ := closeBlock_ok h <;> rw [hd]
  all_goals rfl

/-- **One token** changes the depth as it changes the count of braces. -/
theorem accept_depth {t : Token} (h : s.accept e n o t = some (.ok u)) :
    u.depth = t.depthAfter s.depth := by
  cases t with
  | number x => exact deliver_depth (Option.some.inj h)
  | boolean b => exact deliver_depth (Option.some.inj h)
  | operator op =>
    cases op with
    | openBrace => exact openBlock_depth (Option.some.inj h)
    | closeBrace => exact closeBlock_depth (Option.some.inj h)
    | _ => exact operate_depth (e := e) (n := n) h

end Session

/-! ## Counting over bytes -/

/-- How many braces are open after a byte, when `d` were before it. -/
def depthAfterByte (d : Nat) (b : UInt8) : Nat :=
  if b = openByte then d + 1 else if b = closeByte then d - 1 else d

/-- How many braces a text leaves open. -/
def leftOpen (text : List UInt8) : Nat :=
  text.foldl depthAfterByte 0

theorem depthAfterByte_of_not_isBrace {b : UInt8} (hb : isBrace b = false) (d : Nat) :
    depthAfterByte d b = d := by
  simp only [isBrace, Bool.or_eq_false_iff, decide_eq_false_iff_not] at hb
  rw [depthAfterByte, if_neg hb.1, if_neg hb.2]

/-- A run has no brace in it. -/
theorem foldl_depthAfterByte_run {run : List UInt8} (h : ∀ b ∈ run, endsWord b = false) (d : Nat) :
    run.foldl depthAfterByte d = d := by
  induction run with
  | nil => rfl
  | cons b run ih =>
    obtain ⟨hb, hrun⟩ := List.forall_mem_cons.mp h
    have hbrace : isBrace b = false := (Bool.or_eq_false_iff.mp hb).2
    rw [List.foldl_cons, depthAfterByte_of_not_isBrace hbrace, ih hrun]

/-! ## Braces and other words -/

/-- No letter but a brace turns into one when it is made small. -/
theorem isBrace_of_toLower {b : UInt8}
    (h : (Char.ofNat b.toNat).toLower = '\x7b' ∨ (Char.ofNat b.toNat).toLower = '\x7d') :
    isBrace b = true := by
  have hall : ∀ n : Fin 256, (Char.ofNat n).toLower = '\x7b' ∨ (Char.ofNat n).toLower = '\x7d' →
      isBrace (UInt8.ofFin n) = true := by decide +kernel
  exact hall b.toFin h

/-- The name of a brace is a brace. -/
theorem isBrace_of_isSpelled {op : Operator} {w : Word} (hop : (Token.operator op).isBrace = true)
    (h : op.isSpelled (Operator.latin w) = true) : ∃ b ∈ w, isBrace b = true := by
  cases w with
  | nil =>
    rw [Operator.latin, List.map_nil, Operator.isSpelled] at h
    · cases h
    · simp
  | cons b w =>
    refine ⟨b, List.mem_cons_self, isBrace_of_toLower ?_⟩
    cases op with
    | openBrace =>
      simp only [Operator.isSpelled, Operator.letters, Operator.latin, List.map_cons, Bool.and_eq_true,
        beq_iff_eq] at h
      exact .inl h.1
    | closeBrace =>
      simp only [Operator.isSpelled, Operator.letters, Operator.latin, List.map_cons, Bool.and_eq_true,
        beq_iff_eq] at h
      exact .inr h.1
    | _ => cases hop

namespace Token

/-- A brace, as the token that it is. -/
theorem ofWord_brace {b : UInt8} (hb : TypeFour.isBrace b = true) (policy : UnknownTokens) :
    ∃ t, ofWord policy [b] = .ok t ∧ ∀ d, t.depthAfter d = depthAfterByte d b := by
  simp only [TypeFour.isBrace, Bool.or_eq_true, decide_eq_true_eq] at hb
  rcases hb with rfl | rfl
  · exact ⟨.operator .openBrace, rfl, fun _ => rfl⟩
  · exact ⟨.operator .closeBrace, rfl, fun _ => rfl⟩

/-- A word without a brace in it names none. -/
theorem isBrace_ofWord {w : Word} (hw : ∀ b ∈ w, TypeFour.isBrace b = false) :
    (Token.operator (Operator.ofWord w)).isBrace = false := by
  by_contra hop
  rw [Bool.not_eq_false] at hop
  have hname : Operator.ofWord w ≠ .noOp := by
    intro hno
    rw [hno] at hop
    cases hop
  obtain ⟨b, hb, hbrace⟩ := isBrace_of_isSpelled hop (Operator.isSpelled_ofWord hname)
  rw [hw b hb] at hbrace
  cases hbrace

/-- The name of an operator is that operator. -/
theorem eq_of_ofName {policy : UnknownTokens} {w : Word} {t : Token} (h : ofName policy w = .ok t) :
    t = .operator (Operator.ofWord w) := by
  unfold ofName at h
  split at h
  · cases h
  · cases h
    rfl

/-- A word that begins as a number does is read as one. -/
theorem ofWord_numeral {b : UInt8} (hb : b < 0x41) (policy : UnknownTokens) (rest : List UInt8) :
    ofWord policy (b :: rest) = ofNumeral policy (b :: rest) := by
  have hbrace : ¬TypeFour.isBrace b = true := by
    simp only [TypeFour.isBrace, Bool.or_eq_true, decide_eq_true_eq]
    rintro (rfl | rfl) <;> exact absurd hb (by decide)
  have htf : ¬(b = 0x74 ∨ b = 0x66) := by
    rintro (rfl | rfl) <;> exact absurd hb (by decide)
  simp only [ofWord, List.head?_cons, if_neg hbrace, if_neg htf, if_pos hb]

/-- Any other word that is no brace is a boolean or read as a name. -/
theorem ofWord_name {b : UInt8} (hbrace : TypeFour.isBrace b = false) (hb : ¬b < 0x41)
    (policy : UnknownTokens) (rest : List UInt8) :
    ofWord policy (b :: rest) = match booleanOf? (b :: rest) with
      | some truth => .ok (.boolean truth)
      | none => ofName policy (b :: rest) := by
  have hbrace' : ¬TypeFour.isBrace b = true := Bool.eq_false_iff.mp hbrace
  by_cases htf : b = 0x74 ∨ b = 0x66
  · exact (if_neg hbrace').trans (if_pos htf)
  · simp only [ofWord, List.head?_cons, if_neg hbrace', if_neg htf, if_neg hb, booleanOf?_eq_none htf]

/-- **A word that is no brace** is no brace as a token either. -/
theorem isBrace_of_run {w : Word} (hw : ∀ b ∈ w, endsWord b = false) {policy : UnknownTokens} {t : Token}
    (h : ofWord policy w = .ok t) : t.isBrace = false := by
  have hplain : ∀ b ∈ w, TypeFour.isBrace b = false := fun b hb => (Bool.or_eq_false_iff.mp (hw b hb)).2
  have hname (hn : ofName policy w = .ok t) : t.isBrace = false := by
    rw [eq_of_ofName hn]
    exact isBrace_ofWord hplain
  cases w with
  | nil => exact hname h
  | cons b rest =>
    by_cases hnum : b < 0x41
    · rw [ofWord_numeral hnum] at h
      unfold ofNumeral at h
      cases hn : numberOf? (b :: rest) with
      | some x =>
        rw [hn] at h
        cases h
        rfl
      | none =>
        rw [hn] at h
        cases policy with
        | strict => cases h
        | lenient =>
          cases h
          rfl
    · rw [ofWord_name (hplain b List.mem_cons_self) hnum] at h
      cases hbool : booleanOf? (b :: rest) with
      | some truth =>
        rw [hbool] at h
        cases h
        rfl
      | none =>
        rw [hbool] at h
        exact hname h

end Token

/-! ## The depth after a text -/

theorem Session.run_depth {text : List UInt8} {s u : Session}
    (h : run e n o (words text) s = some (.ok u)) : u.depth = text.foldl depthAfterByte s.depth := by
  induction text using text_induction generalizing s with
  | nil =>
    cases h
    rfl
  | blank b rest hb ih =>
    rw [words_blank hb] at h
    rw [List.foldl_cons, depthAfterByte_of_not_isBrace (not_isBrace_of_isBlank hb)]
    exact ih h
  | brace b rest hb ih =>
    rw [words_brace hb] at h
    obtain ⟨t, ht, hdepth⟩ := Token.ofWord_brace hb o.unknownTokens
    obtain ⟨t', ht', ⟨-, hnone⟩ | ⟨v, hv, hrun⟩⟩ := run_cons_cases h (by simp)
    · cases hnone
    obtain rfl : t = t' := Except.ok.inj (ht.symm.trans ht')
    rw [List.foldl_cons, ← hdepth, ← accept_depth hv]
    exact ih hrun
  | run run rest hne hrun hrest ih =>
    rw [words_run hne hrun hrest] at h
    obtain ⟨t, ht, ⟨-, hnone⟩ | ⟨v, hv, hrest'⟩⟩ := run_cons_cases h (by simp)
    · cases hnone
    rw [List.foldl_append, foldl_depthAfterByte_run hrun, ih hrest', accept_depth hv,
      Token.depthAfter_plain (Token.isBrace_of_run hrun ht)]

end TypeFour
