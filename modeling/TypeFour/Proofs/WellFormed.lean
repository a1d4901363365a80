import TypeFour.Proofs.Policies
import TypeFour.Proofs.Truncation

/-!
# `TypeFour.Proofs.WellFormed` — what success certifies

Under the strict policies a program that ends with a stack is well formed from its first word to its last:
every word means something, every closing brace closes an earlier opening one, and every opening brace is
closed. This holds of the blocks that were only recorded as well, and of what stands after the body.

## Contents
- `Operator.Names`, `Meaningful`, `WellFormed` — well-formed programs.
- `Token.ofWord_strict_iff` — the strict policy lets exactly the meaningful words pass.
- `Session.meaningful_of_run`, `run_count`, `run_prefix_count` — what a run that succeeds has seen.
- `Session.not_isIssue_of_closes` — words that raise no issue.
- `wellFormed_of_evaluate` — whole programs.
-/

namespace TypeFour

/-! ## Well-formed programs -/

/-- The word writes the name of the operator, its first letter in either case. -/
def Operator.Names (op : Operator) (w : Word) : Prop :=
  ∃ c cs, op.letters = c :: cs ∧ (latin w = c :: cs ∨ latin w = c.toUpper :: cs)

/-- A word that means something. -/
inductive Meaningful : Word → Prop where
  | openBrace : Meaningful [openByte]
  | closeBrace : Meaningful [closeByte]
  | number {w} : (numberOf? w).isSome = true → Meaningful w
  /-- `true`. -/
  | yes : Meaningful [0x74, 0x72, 0x75, 0x65]
  /-- `false`. -/
  | no : Meaningful [0x66, 0x61, 0x6C, 0x73, 0x65]
  | operator {op w} : op ≠ .noOp → Operator.Names op w → Meaningful w

/-- Every word means something, and the braces among the words match. -/
structure WellFormed (text : List UInt8) : Prop where
  meaningful : ∀ w ∈ words text, Meaningful w
  /-- Every closing brace closes an earlier opening one. -/
  closes : ∀ ws, ws <+: words text → ws.count [closeByte] ≤ ws.count [openByte]
  /-- Every opening brace is closed. -/
  closed : (words text).count [openByte] = (words text).count [closeByte]

/-! ## Meaningful words -/

namespace Operator

theorem mem_all (op : Operator) : op ∈ all := by
  cases op <;> decide

/-- A byte is the first letter of a name in small letters, or its capital. -/
theorem toLower_eq_iff {op : Operator} {a : Char} {as : List Char} (h : op.letters = a :: as) (b : UInt8) :
    (Char.ofNat b.toNat).toLower = a ↔ Char.ofNat b.toNat = a ∨ Char.ofNat b.toNat = a.toUpper := by
  have hbytes : ∀ n : Fin 256, (Char.ofNat n).toLower = Char.ofNat n ∨
      (Char.ofNat n).toLower.toUpper = Char.ofNat n := by decide +kernel
  have hnames : ∀ op ∈ all, (op.letters.headD ' ').toLower = op.letters.headD ' ' ∧
      (op.letters.headD ' ').toUpper.toLower = op.letters.headD ' ' := by decide +kernel
  obtain ⟨hsmall, hcapital⟩ := hnames op (mem_all op)
  rw [h, List.headD_cons] at hsmall hcapital
  constructor
  · rintro rfl
    exact (hbytes b.toFin).imp Eq.symm Eq.symm
  · rintro (hb | hb)
    · rw [hb, hsmall]
    · rw [hb, hcapital]

/-- Whether a word spells an operator is whether it writes its name. -/
theorem isSpelled_iff {op : Operator} {w : Word} : op.isSpelled (latin w) = true ↔ op.Names w := by
  obtain ⟨a, as, hletters⟩ : ∃ a as, op.letters = a :: as := by
    cases op <;> exact ⟨_, _, rfl⟩
  cases w with
  | nil => simp [isSpelled, Names, latin, hletters]
  | cons b rest =>
    have hlatin : latin (b :: rest) = Char.ofNat b.toNat :: latin rest := rfl
    simp only [isSpelled, Names, hletters, hlatin, Bool.and_eq_true, beq_iff_eq, toLower_eq_iff hletters,
      List.cons.injEq, ← or_and_right]
    constructor
    · rintro ⟨hb, hrest⟩
      exact ⟨a, as, ⟨rfl, rfl⟩, hb, hrest⟩
    · rintro ⟨_, _, ⟨rfl, rfl⟩, hb, hrest⟩
      exact ⟨hb, hrest⟩

/-- A word is read as an operator when it names one. -/
theorem ofWord_ne_noOp_iff {w : Word} : ofWord w ≠ noOp ↔ ∃ op : Operator, op ≠ noOp ∧ op.Names w := by
  simp only [← isSpelled_iff]
  constructor
  · intro h
    exact ⟨ofWord w, h, isSpelled_ofWord h⟩
  · rintro ⟨op, hop, hspelled⟩
    rwa [ofWord_of_isSpelled hop hspelled]

/-- No name begins with a byte that begins a number. -/
theorem not_lt_of_names {op : Operator} {b : UInt8} {rest : Word} (h : op.Names (b :: rest)) :
    ¬b < 0x41 := by
  have hnames : ∀ op ∈ all, 0x41 ≤ (op.letters.headD ' ').toNat ∧
      0x41 ≤ (op.letters.headD ' ').toUpper.toNat := by decide +kernel
  obtain ⟨a, as, hletters, hw⟩ := h
  obtain ⟨hsmall, hcapital⟩ := hnames op (mem_all op)
  rw [hletters, List.headD_cons] at hsmall hcapital
  have hfirst : Char.ofNat b.toNat = a ∨ Char.ofNat b.toNat = a.toUpper :=
    hw.imp (fun h => (List.cons.inj h).1) fun h => (List.cons.inj h).1
  have hle : 0x41 ≤ b.toNat := by
    rcases hfirst with hfirst | hfirst
    · rw [← toNat_ofNat_byte b, hfirst]
      exact hsmall
    · rw [← toNat_ofNat_byte b, hfirst]
      exact hcapital
  rw [UInt8.lt_iff_toNat_lt]
  exact Nat.not_lt.mpr hle

end Operator

/-- A number begins with a sign, a digit or a point. -/
theorem lt_of_numberOf {b : UInt8} {rest : Word} (h : (numberOf? (b :: rest)).isSome = true) : b < 0x41 := by
  by_contra hb
  have hplus : b ≠ 0x2B := by rintro rfl; exact hb (by decide)
  have hminus : b ≠ 0x2D := by rintro rfl; exact hb (by decide)
  have hpoint : b ≠ 0x2E := by rintro rfl; exact hb (by decide)
  have hdigit : Decimal.isDigit b = false := by
    have hlt : ¬b ≤ 0x39 := fun hle => hb (UInt8.lt_of_le_of_lt hle (by decide))
    simp [Decimal.isDigit, hlt]
  -- so there are no digits in front, and there is nothing to read
  have hread : Decimal.read? (b :: rest) = none := by
    simp [Decimal.read?, Decimal.splitSign, Decimal.splitFraction, hplus, hminus, hpoint, hdigit]
  have hwithout : withoutPlus (b :: rest) = b :: rest := by
    simp [withoutPlus, hplus]
  rw [numberOf?, hwithout, hread] at h
  cases h

/-- What a meaningful word is, if it is no brace: a number, a boolean or the name of an operator. -/
theorem meaningful_run_iff {w : Word} (hrun : ∀ b ∈ w, endsWord b = false) :
    Meaningful w ↔
      (numberOf? w).isSome = true ∨ (booleanOf? w).isSome = true ∨ Operator.ofWord w ≠ .noOp := by
  rw [Operator.ofWord_ne_noOp_iff]
  constructor
  · intro h
    cases h with
    | openBrace => cases hrun openByte List.mem_cons_self
    | closeBrace => cases hrun closeByte List.mem_cons_self
    | number hn => exact .inl hn
    | yes => exact .inr (.inl rfl)
    | no => exact .inr (.inl rfl)
    | operator hop hname => exact .inr (.inr ⟨_, hop, hname⟩)
  · rintro (hn | hb | ⟨op, hop, hname⟩)
    · exact .number hn
    · obtain ⟨truth, htruth⟩ := Option.isSome_iff_exists.mp hb
      rw [booleanOf?_eq_some_iff.mp htruth]
      cases truth with
      | true => exact .yes
      | false => exact .no
    · exact .operator hop hname

namespace Token

variable {w : Word}

theorem ofName_strict_iff : (∃ t, ofName .strict w = .ok t) ↔ Operator.ofWord w ≠ .noOp := by
  constructor
  · rintro ⟨t, ht⟩ hno
    unfold ofName at ht
    rw [hno] at ht
    cases ht
  · intro hname
    exact ⟨_, ofName_of_ne hname .strict⟩

theorem ofNumeral_strict_iff : (∃ t, ofNumeral .strict w = .ok t) ↔ (numberOf? w).isSome = true := by
  unfold ofNumeral
  cases numberOf? w with
  | some x => simp
  | none => simp

/-- A run under the strict policy. By its first byte it is tried as a number, or as a boolean and a name; it
could not be one of the others. -/
theorem ofWord_strict_run {b : UInt8} {rest : Word} (hrun : ∀ c ∈ b :: rest, endsWord c = false) :
    (∃ t, ofWord .strict (b :: rest) = .ok t) ↔ Meaningful (b :: rest) := by
  have hbrace : TypeFour.isBrace b = false := (Bool.or_eq_false_iff.mp (hrun b List.mem_cons_self)).2
  rw [meaningful_run_iff hrun]
  by_cases hnum : b < 0x41
  · have htf : ¬(b = 0x74 ∨ b = 0x66) := by
      rintro (rfl | rfl) <;> exact absurd hnum (by decide)
    have hbool : ¬(booleanOf? (b :: rest)).isSome = true := by
      rw [booleanOf?_eq_none htf]
      exact Bool.false_ne_true
    have hname : ¬Operator.ofWord (b :: rest) ≠ .noOp := by
      rw [Operator.ofWord_ne_noOp_iff]
      rintro ⟨op, -, hop⟩
      exact Operator.not_lt_of_names hop hnum
    rw [ofWord_numeral hnum, ofNumeral_strict_iff, or_iff_left (not_or.mpr ⟨hbool, hname⟩)]
  · have hnumber : ¬(numberOf? (b :: rest)).isSome = true := fun hn => hnum (lt_of_numberOf hn)
    rw [ofWord_name hbrace hnum, or_iff_right hnumber]
    cases booleanOf? (b :: rest) with
    | some truth => simp
    | none =>
      simp only [Option.isSome_none, Bool.false_eq_true, false_or]
      exact ofName_strict_iff

/-- **The strict policy** lets exactly the meaningful words pass. -/
theorem ofWord_strict_iff (hw : IsWord w) : (∃ t, ofWord .strict w = .ok t) ↔ Meaningful w := by
  obtain rfl | rfl | ⟨hne, hrun⟩ := hw.brace_or_run
  · exact ⟨fun _ => .openBrace, fun _ => ⟨_, rfl⟩⟩
  · exact ⟨fun _ => .closeBrace, fun _ => ⟨_, rfl⟩⟩
  · obtain ⟨b, rest, rfl⟩ := List.exists_cons_of_ne_nil hne
    exact ofWord_strict_run hrun

end Token

/-- A closing brace is the only word that means one. -/
theorem IsWord.eq_close {w : Word} {policy : UnknownTokens} (hw : IsWord w)
    (h : Token.ofWord policy w = .ok (.operator .closeBrace)) : w = [closeByte] := by
  obtain rfl | rfl | ⟨-, hrun⟩ := hw.brace_or_run
  · cases h
  · rfl
  · cases Token.isBrace_of_run hrun h

/-! ## Runs that succeed -/

namespace Session

variable {e : Elementary} {n : Nat} {o : Options} {ws : List Word} {s u : Session}

/-- **Every word that is passed** under the strict policy means something, whether it was executed or only
recorded. -/
theorem meaningful_of_run (ho : o.unknownTokens = .strict) (hws : ∀ w ∈ ws, IsWord w)
    (h : run e n o ws s = some (.ok u)) : ∀ w ∈ ws, Meaningful w := by
  induction ws generalizing s with
  | nil => exact fun w hw => nomatch hw
  | cons w ws ih =>
    obtain ⟨hw, hws⟩ := List.forall_mem_cons.mp hws
    obtain ⟨t, ht, ⟨-, hnone⟩ | ⟨v, -, hv⟩⟩ := run_cons_cases h (by simp)
    · cases hnone
    · rw [ho] at ht
      exact List.forall_mem_cons.mpr ⟨(Token.ofWord_strict_iff hw).mp ⟨t, ht⟩, ih hws hv⟩

/-- One word that is accepted under the strict policy, and the braces that are open before and after. -/
theorem accept_count (ho : o.unknownTokens = .strict) {w : Word} {t : Token} (hw : IsWord w)
    (ht : Token.ofWord o.unknownTokens w = .ok t) (h : s.accept e n o t = some (.ok u)) :
    u.depth + [w].count [closeByte] = s.depth + [w].count [openByte] := by
  have hdepth := accept_depth h
  obtain rfl | rfl | ⟨-, hrun⟩ := hw.brace_or_run
  · cases ht
    exact hdepth
  · cases ht
    -- the strict policy would have made a stray brace a fault
    have hopen : s.depth ≠ 0 := by
      obtain ⟨-, hlenient, -⟩ | ⟨hd, -⟩ | ⟨d, hd, -⟩ := closeBlock_ok (Option.some.inj h)
      · rw [ho] at hlenient
        cases hlenient
      · omega
      · omega
    have hdepth : u.depth = s.depth - 1 := hdepth
    show u.depth + 1 = s.depth + 0
    omega
  · have hplain := Token.isBrace_of_run hrun ht
    have hnone {b : UInt8} (hb : endsWord b = true) : [w].count [b] = 0 := by
      rw [List.count_eq_zero, List.mem_singleton]
      rintro rfl
      rw [hrun b List.mem_cons_self] at hb
      cases hb
    rw [hdepth, Token.depthAfter_plain hplain, hnone rfl, hnone rfl]

/-- **All words** that are accepted under the strict policy. -/
theorem run_count (ho : o.unknownTokens = .strict) (hws : ∀ w ∈ ws, IsWord w)
    (h : run e n o ws s = some (.ok u)) :
    u.depth + ws.count [closeByte] = s.depth + ws.count [openByte] := by
  induction ws generalizing s with
  | nil =>
    cases h
    rfl
  | cons w ws ih =>
    obtain ⟨hw, hws⟩ := List.forall_mem_cons.mp hws
    obtain ⟨t, ht, ⟨-, hnone⟩ | ⟨v, hv, hrun⟩⟩ := run_cons_cases h (by simp)
    · cases hnone
    · have hfirst := accept_count ho hw ht hv
      have hrest := ih hws hrun
      have hsplit (b : Word) : (w :: ws).count b = [w].count b + ws.count b := by
        rw [← List.count_append, List.singleton_append]
      rw [hsplit, hsplit]
      omega

/-- **At every word** of a run that succeeds no more braces have been closed than opened, and no more are open
than may be. -/
theorem run_prefix_count (ho : o.unknownTokens = .strict) (hws : ∀ w ∈ ws, IsWord w) (hs : s.Nested o)
    (hzero : s.depth = 0) (h : run e n o ws s = some (.ok u)) {front : List Word} (hfront : front <+: ws) :
    front.count [closeByte] ≤ front.count [openByte] ∧
      front.count [openByte] ≤ front.count [closeByte] + o.maxNestingDepth := by
  obtain ⟨rest, rfl⟩ := hfront
  rw [run_append] at h
  obtain ⟨v, hv, -⟩ := Outcome.andThen_eq_ok.mp h
  have hcount := run_count ho (fun w hw => hws w (List.mem_append_left _ hw)) hv
  have hdepth := (run_nested hs hv).depth_le
  omega

/-! ## Runs that fail -/

/-- **Words that mean something and close what they open** raise no issue. -/
theorem not_isIssue_of_closes {f : Fault} (hws : ∀ w ∈ ws, IsWord w) (hmeaning : ∀ w ∈ ws, Meaningful w)
    (hcloses : ∀ front, front <+: ws → front.count [closeByte] ≤ front.count [openByte])
    (hzero : s.depth = 0) (h : run e n o ws s = some (.error f)) : f.isIssue = false := by
  obtain ⟨before, w, after, u, rfl, hbefore, hw⟩ := run_fault h
  have hmem : w ∈ before ++ w :: after := List.mem_append_right _ List.mem_cons_self
  rcases hw with hword | ⟨t, ht, ha⟩
  · -- a word that means something has a token
    obtain ⟨t, ht⟩ := (Token.ofWord_strict_iff (hws w hmem)).mpr (hmeaning w hmem)
    rw [(Token.ofWord_fault hword).1, ht] at hword
    cases hword
  · rcases accept_fault ha with hop | ⟨rfl, -⟩ | ⟨-, rfl, hdepth, ho⟩
    · exact Fault.isIssue_of_isOperand hop
    · rfl
    · -- a closing brace where none is open is one more than have been opened
      obtain rfl := (hws w hmem).eq_close ht
      have hcount := run_count ho (fun w hw => hws w (List.mem_append_left _ hw)) hbefore
      have hfront : before ++ [[closeByte]] <+: before ++ [closeByte] :: after := ⟨after, by simp⟩
      have hmore := hcloses _ hfront
      rw [List.count_append, List.count_append] at hmore
      have hclose : [[closeByte]].count [closeByte] = 1 := rfl
      have hopen : [[closeByte]].count [openByte] = 0 := rfl
      omega

end Session

/-! ## Whole programs -/

/-- What is delivered is read to its end, if nothing stops the reading. -/
theorem Delivered.admitted_of_fault {capacity : Nat} {d : Delivered}
    (h : (d.transcript capacity).fault = none) :
    (∀ w ∈ words d.bytes, w.length ≤ capacity) ∧ (d.transcript capacity).words = words d.bytes := by
  by_cases hadm : ∀ w ∈ words d.bytes, w.length ≤ capacity
  · cases hd : d.failure with
    | none => exact ⟨hadm, by rw [transcript_of_admitted hd hadm]⟩
    | some reason =>
      simp only [transcript, hd] at h
      split at h <;> cases h
  · rw [transcript_of_long hadm] at h
    cases h

variable {e : Elementary} {n : Nat} {o : Options} {text : List UInt8} {inputs : List Float}

/-- **Success** under the strict policies. -/
theorem wellFormed_of_ok (ho : o.unknownTokens = .strict) (htruncated : o.truncatedInput = .fail)
    {t : Stack} (h : Delivered.evaluate e n o ⟨text, none⟩ inputs = some (.ok t)) :
    WellFormed text ∧ (∀ w ∈ words text, w.length ≤ max o.bufferCapacity 1) ∧
      ∀ ws, ws <+: words text →
        ws.count [openByte] ≤ ws.count [closeByte] + o.maxNestingDepth := by
  obtain ⟨stack, s, hinputs, hrun, hfault, hfinish⟩ := Delivered.evaluate_ok h
  obtain ⟨hadm, hwords⟩ := Delivered.admitted_of_fault hfault
  rw [hwords] at hrun
  have hbegins {ws : List Word} (hws : ws <+: words text) :=
    Session.run_prefix_count ho isWord_of_mem_words (nested_of_inputs hinputs) rfl hrun hws
  have hclosed : s.depth = 0 := by
    by_contra hdepth
    rw [Session.finish, if_neg hdepth, htruncated] at hfinish
    cases hfinish
  have hcount := Session.run_count ho isWord_of_mem_words hrun
  rw [hclosed] at hcount
  refine ⟨⟨Session.meaningful_of_run ho isWord_of_mem_words hrun, fun ws hws => (hbegins hws).1, ?_⟩, hadm,
    fun ws hws => (hbegins hws).2⟩
  exact (Nat.add_left_cancel hcount).symm

/-- **A fault of the strict policies** is not one of a well-formed program. -/
theorem not_isPolicy_of_wellFormed (ho : o.unknownTokens = .strict) (hwell : WellFormed text) {f : Fault}
    (h : Delivered.evaluate e n o ⟨text, none⟩ inputs = some (.error f)) : ¬f.IsPolicy := by
  have hfirst := Delivered.words_transcript_isPrefix (max o.bufferCapacity 1) ⟨text, none⟩
  rcases Delivered.evaluate_fault h with hinputs | ⟨stack, -, hrun | ⟨s, hrun, hfault | ⟨hfault, hfinish⟩⟩⟩
  · exact Fault.not_isPolicy_of_isOperand (isOperand_of_inputs hinputs)
  · have hissue := Session.not_isIssue_of_closes (fun w hw => isWord_of_mem_words w (hfirst.subset hw))
      (fun w hw => hwell.meaningful w (hfirst.subset hw))
      (fun front hfront => hwell.closes front (hfront.trans hfirst)) rfl hrun
    exact Fault.not_isPolicy_iff.mpr ⟨hissue, Session.not_isTruncation_of_run_fault hrun⟩
  · rcases Delivered.transcript_fault hfault with rfl | ⟨reason, rfl⟩
    · exact Fault.not_isPolicy_iff.mpr ⟨rfl, rfl⟩
    · exact Fault.not_isPolicy_iff.mpr ⟨rfl, rfl⟩
  · rcases Session.finish_fault hfinish with ⟨hdepth, ⟨-, -⟩ | ⟨hop, -⟩⟩
    · -- every brace is closed
      obtain ⟨-, hwords⟩ := Delivered.admitted_of_fault hfault
      rw [hwords] at hrun
      have hcount := Session.run_count ho isWord_of_mem_words hrun
      rw [hwell.closed] at hcount
      exact absurd (Nat.add_right_cancel hcount) hdepth
    · exact Fault.not_isPolicy_of_isOperand hop

/-- **Success certifies the whole program.** A program that ends with a stack under the strict policies is well
formed, has no word that is too long, and nests no deeper than it may, also where it was only recorded. A
program that ends in one of the faults of these policies is not well formed. -/
theorem wellFormed_of_evaluate (e : Elementary) (n : Nat) (o : Options) (text : List UInt8) (source : Source)
    (hsource : source.Delivers text) (inputs : List Float) :
    (∀ t, evaluate e n (o.under .strict .fail) source inputs = some (.ok t) →
      WellFormed text ∧ (∀ w ∈ words text, w.length ≤ max o.bufferCapacity 1) ∧
        ∀ ws, ws <+: words text →
          ws.count [openByte] ≤ ws.count [closeByte] + o.maxNestingDepth) ∧
    ∀ f, evaluate e n (o.under .strict .fail) source inputs = some (.error f) →
      f.isIssue = true ∨ f.isTruncation = true → ¬WellFormed text := by
  rcases unread_or_read o inputs with ⟨f, hunread⟩ | ⟨hwraps, -⟩
  · rw [hunread.evaluate_eq _ _ (o.under .strict .fail) _ rfl rfl]
    refine ⟨fun t h => (nomatch h), fun f' h hf => ?_⟩
    cases h
    exact absurd hf hunread.not_isPolicy
  · rw [hsource.evaluate_delivered (o := o.under .strict .fail) _ _ hwraps]
    constructor
    · intro t h
      exact wellFormed_of_ok (o := o.under .strict .fail) rfl rfl h
    · intro f h hf hwell
      exact not_isPolicy_of_wellFormed rfl hwell h hf

/-! ### A block that is only recorded -/

/-- The text `{false{pop}if}`. -/
def neverPops : List UInt8 :=
  [0x7B, 0x66, 0x61, 0x6C, 0x73, 0x65, 0x7B, 0x70, 0x6F, 0x70, 0x7D, 0x69, 0x66, 0x7D]

/-- The text `{false{nop}if}`. -/
def neverNops : List UInt8 :=
  [0x7B, 0x66, 0x61, 0x6C, 0x73, 0x65, 0x7B, 0x6E, 0x6F, 0x70, 0x7D, 0x69, 0x66, 0x7D]

/-- The inner blocks are not executed. The first program is certified all the same, and the second is found
out. -/
theorem wellFormed_of_evaluate_neverPops :
    (Source.ofBytes neverPops).Delivers neverPops ∧ WellFormed neverPops ∧
      (Source.ofBytes neverNops).Delivers neverNops ∧ ¬WellFormed neverNops := by
  have hpops := Source.ofBytes_delivers neverPops
  have hnops := Source.ofBytes_delivers neverNops
  have hok : evaluate .machine 0 (Options.under {} .strict .fail) (.ofBytes neverPops) [] =
      some (.ok ⟨[], some 100⟩) := (hpops.evaluate_delivered _ _ (by decide) _).trans (by rfl)
  have hundefined : evaluate .machine 0 (Options.under {} .strict .fail) (.ofBytes neverNops) [] =
      some (.error (.undefined [0x6E, 0x6F, 0x70])) := (hnops.evaluate_delivered _ _ (by decide) _).trans (by rfl)
  exact ⟨hpops, ((wellFormed_of_evaluate .machine 0 {} _ _ hpops []).1 _ hok).1, hnops,
    (wellFormed_of_evaluate .machine 0 {} _ _ hnops []).2 _ hundefined (.inl rfl)⟩

end TypeFour
