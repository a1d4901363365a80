import TypeFour.Proofs.Depth

/-!
# `TypeFour.Proofs.Recording` — recording loses nothing and does nothing else

Inside an open brace a block `{ T }` is recorded, not executed. From its first token to its last the stack
stays as it is, and so do the recordings around it; what comes of it is one procedure, and the tokens can be
read off the procedure again. This holds whatever the tokens are, as long as the braces among them match and
do not nest too deep.

## Contents
- `Procedure.tokens` — the tokens that a procedure was recorded from.
- `exists_phrase`, `nesting_tokens` — tokens whose braces match, as a tree.
- `acceptAll_inside` — some of the tokens of a block; `acceptAll_braced` — all of it.
-/

namespace TypeFour

variable {e : Elementary} {n : Nat} {o : Options}

/-! ## Reading back -/

mutual

/-- The tokens that an instruction was recorded from. -/
def Instruction.tokens : Instruction → List Token
  | .number x => [.number x]
  | .boolean b => [.boolean b]
  | .operator op => [.operator op]
  | .block _ body => .operator .openBrace :: (tokensAll body ++ [.operator .closeBrace])

/-- The tokens that some instructions were recorded from. -/
def tokensAll : List Instruction → List Token
  | [] => []
  | i :: is => i.tokens ++ tokensAll is

end

/-- The tokens between the braces of a procedure. -/
def Procedure.tokens (p : Procedure) : List Token :=
  tokensAll p.body

theorem Token.tokens_toInstruction (t : Token) : t.toInstruction.tokens = [t] := by
  cases t <;> rfl

/-- Nothing of a phrase is lost when it is recorded. -/
theorem Phrase.tokens_record (T : Phrase) (k : Nat) : tokensAll (T.record k) = T.tokens := by
  induction T generalizing k with
  | nil => rfl
  | token t plain rest ih =>
    rw [record, tokensAll, ih, Token.tokens_toInstruction]
    rfl
  | block inner rest ihi ihr =>
    rw [record, tokensAll, ihr, Instruction.tokens, ihi, tokens]
    simp

/-! ## Tokens whose braces match, as a tree -/

/-- Up to the brace that closes the innermost open one, or to the end, the tokens are a phrase. -/
theorem exists_phrase {d : Nat} {ts : List Token} (h : Matched d ts) :
    ∃ (T : Phrase) (rest : List Token), ts = T.tokens ++ rest ∧
      (d = 0 ∧ rest = [] ∨
        ∃ d' rest', d = d' + 1 ∧ rest = .operator .closeBrace :: rest' ∧ Matched d' rest') := by
  -- on the length: after an opening brace what follows the inner phrase is shorter
  induction hlen : ts.length using Nat.strong_induction_on generalizing d ts with
  | _ l ih =>
  subst hlen
  cases ts with
  | nil => exact ⟨.nil, [], rfl, .inl ⟨h, rfl⟩⟩
  | cons t ts =>
    obtain ⟨hclose, hts⟩ := h
    obtain rfl | rfl | hplain := t.brace_cases
    · obtain ⟨inner, _, rfl, ⟨hd, -⟩ | ⟨d', after, hd, rfl, hafter⟩⟩ := ih _ (Nat.lt_succ_self _) hts rfl
      · cases hd
      cases hd
      obtain ⟨T, rest, rfl, hrest⟩ := ih _ (by simp; omega) hafter rfl
      exact ⟨.block inner T, rest, by simp [Phrase.tokens], hrest⟩
    · obtain ⟨d', rfl⟩ := Nat.exists_eq_succ_of_ne_zero (hclose rfl)
      exact ⟨.nil, _, rfl, .inr ⟨d', ts, rfl, rfl, hts⟩⟩
    · rw [Token.depthAfter_plain hplain] at hts
      obtain ⟨T, rest, rfl, hrest⟩ := ih _ (Nat.lt_succ_self _) hts rfl
      exact ⟨.token t hplain T, rest, rfl, hrest⟩

theorem nesting_tokens (T : Phrase) (d : Nat) (rest : List Token) :
    nesting d (T.tokens ++ rest) = max (d + T.height) (nesting d rest) := by
  induction T generalizing d rest with
  | nil =>
    have := le_nesting d rest
    rw [Phrase.tokens, List.nil_append, Phrase.height]
    omega
  | token t plain T ih =>
    rw [Phrase.tokens, List.cons_append, nesting, Token.depthAfter_plain plain, ih, Phrase.height]
    omega
  | block inner T ihi ihr =>
    have hinner : nesting (d + 1) (inner.tokens ++ .operator .closeBrace :: (T.tokens ++ rest)) =
        max (d + 1 + inner.height) (max (d + 1) (max (d + T.height) (nesting d rest))) := by
      rw [ihi, nesting]
      exact congrArg (max _ <| max _ ·) (ihr d rest)
    rw [Phrase.tokens, List.cons_append, List.append_assoc, List.cons_append, nesting]
    show max d (nesting (d + 1) _) = _
    rw [hinner, Phrase.height]
    omega

/-- Tokens whose braces match are a phrase. -/
theorem exists_phrase_of_matched {ts : List Token} (h : Matched 0 ts) :
    ∃ T : Phrase, T.tokens = ts ∧ T.height = nesting 0 ts := by
  obtain ⟨T, rest, rfl, ⟨-, rfl⟩ | ⟨d, -, hd, -⟩⟩ := exists_phrase h
  · refine ⟨T, (List.append_nil _).symm, ?_⟩
    rw [nesting_tokens]
    simp [nesting]
  · cases hd

/-! ## Inside a block -/

namespace Session

/-- **Some of the tokens of a block.** While `d + 1` blocks inside each other are being recorded, tokens
touch only these: the stack stays, the recordings around them stay, and the depth goes with their number. -/
theorem acceptAll_inside (pre : List Token) {rest : List Token} {d base opened : Nat} {stack : Stack}
    {inner rs : List Recording} (hinner : inner.length = d + 1)
    (hts : Matched d (pre ++ rest)) (hfit : base + 1 + nesting d (pre ++ rest) ≤ o.maxNestingDepth) :
    ∃ (inner' : List Recording) (opened' : Nat), inner'.length = pre.foldl Token.depthAfter d + 1 ∧
      acceptAll e n o pre ⟨stack, inner ++ rs, base + inner.length, opened⟩ =
        some (.ok ⟨stack, inner' ++ rs, base + inner'.length, opened'⟩) := by
  induction pre generalizing d inner opened with
  | nil => exact ⟨inner, opened, hinner, rfl⟩
  | cons t pre ih =>
    obtain ⟨hclose, hts⟩ := hts
    have hmax : base + 1 + nesting (t.depthAfter d) (pre ++ rest) ≤ o.maxNestingDepth :=
      Nat.le_trans (Nat.add_le_add_left (Nat.le_max_right _ _) _) hfit
    obtain ⟨r, inner, rfl⟩ := List.exists_cons_of_length_eq_add_one hinner
    have hdepth : base + (inner.length + 1) ≠ 0 := Nat.succ_ne_zero _
    obtain rfl | rfl | hplain := t.brace_cases
    · -- one more recording
      have hlim : base + (inner.length + 1) < o.maxNestingDepth := by
        have hle : d + 1 ≤ nesting (d + 1) (pre ++ rest) := le_nesting _ _
        have hmax' : base + 1 + nesting (d + 1) (pre ++ rest) ≤ o.maxNestingDepth := hmax
        have hlen : inner.length + 1 = d + 1 := hinner
        omega
      have hopened : (⟨opened, []⟩ :: r :: inner : List Recording).length = d + 1 + 1 :=
        congrArg (· + 1) hinner
      obtain ⟨inner', opened', hlen, hrun⟩ := ih hopened hts hmax
      exact ⟨inner', opened', hlen, (acceptAll_cons_of_ok (accept_open hdepth hlim) pre).trans hrun⟩
    · -- one recording less, which the one around it takes in
      obtain ⟨d, rfl⟩ := Nat.exists_eq_succ_of_ne_zero (hclose rfl)
      obtain ⟨r', inner, rfl⟩ := List.exists_cons_of_length_eq_add_one (Nat.succ.inj hinner)
      have hdepth' : base + (inner.length + 1) ≠ 0 := Nat.succ_ne_zero _
      have hclosed : (r'.add (Value.procedure r.toProcedure).toInstruction :: inner).length = d + 1 :=
        Nat.succ.inj hinner
      obtain ⟨inner', opened', hlen, hrun⟩ := ih hclosed hts hmax
      exact ⟨inner', opened', hlen, (acceptAll_cons_of_ok (accept_close hdepth') pre).trans hrun⟩
    · rw [Token.depthAfter_plain hplain] at hts hmax
      rw [List.foldl_cons, Token.depthAfter_plain hplain]
      have hrecorded : (r.add t.toInstruction :: inner).length = d + 1 := hinner
      obtain ⟨inner', opened', hlen, hrun⟩ := ih hrecorded hts hmax
      exact ⟨inner', opened', hlen, (acceptAll_cons_of_ok (accept_record rfl hplain) pre).trans hrun⟩

/-- **A whole block.** With a brace open, `{ T }` becomes one procedure, from which `T` can be read off. The
innermost recording takes it in, or else the stack, where there has to be room for it; that is all that
changes, after the block and at any moment within it, whatever the operators of `T` would do. -/
theorem acceptAll_braced (o : Options) (s : Session) (ts : List Token) (hdepth : 1 ≤ s.depth)
    (hts : Matched 0 ts) (hfit : s.depth + 1 + nesting 0 ts ≤ o.maxNestingDepth) :
    ∃ (p : Procedure) (opened : Nat), p.tokens = ts ∧ p.origin = s.opened ∧ s.opened < opened ∧
      ∀ e n,
        (∀ pre, pre <+: ts → ∃ inner k, inner.length = pre.foldl Token.depthAfter 0 + 1 ∧
          acceptAll e n o (.operator .openBrace :: pre) s =
            some (.ok ⟨s.stack, inner ++ s.recordings, s.depth + inner.length, k⟩)) ∧
        (∀ r rs, s.recordings = r :: rs →
          acceptAll e n o (.operator .openBrace :: (ts ++ [.operator .closeBrace])) s =
            some (.ok ⟨s.stack, ⟨r.origin, .block p.origin p.body :: r.latest⟩ :: rs, s.depth, opened⟩)) ∧
        (s.recordings = [] →
          acceptAll e n o (.operator .openBrace :: (ts ++ [.operator .closeBrace])) s =
            if s.stack.hasRoom 1 then
              some (.ok ⟨{ s.stack with items := .procedure p :: s.stack.items }, [], s.depth, opened⟩)
            else some (.error .stackOverflow)) := by
  obtain ⟨T, rfl, hheight⟩ := exists_phrase_of_matched hts
  obtain ⟨stack, recordings, depth, opened⟩ := s
  have hpos : depth ≠ 0 := Nat.one_le_iff_ne_zero.mp hdepth
  have hfit' : depth + (T.height + 1) ≤ o.maxNestingDepth := by
    rw [← hheight] at hfit
    have : depth + 1 + T.height ≤ o.maxNestingDepth := hfit
    omega
  refine ⟨⟨opened, T.record (opened + 1)⟩, opened + (T.blocks + 1), T.tokens_record _, rfl,
    Nat.lt_add_of_pos_right (Nat.succ_pos _), fun e n => ⟨?_, ?_, ?_⟩⟩
  · rintro pre ⟨rest, hpre⟩
    rw [← hpre] at hts hfit
    have hlim : depth < o.maxNestingDepth := by omega
    rw [acceptAll_cons_of_ok (accept_open hpos hlim)]
    have hinner : ([⟨opened, []⟩] : List Recording).length = 0 + 1 := rfl
    exact acceptAll_inside pre hinner hts hfit
  · rintro r rs rfl
    exact acceptAll_block T [] hpos hfit'
  · rintro rfl
    refine (acceptAll_block T [] hpos hfit').trans ?_
    simp only [deliver, Action.outcome, Stack.push]
    by_cases hr : stack.hasRoom 1 = true
    · rw [if_pos hr, if_pos hr]
      rfl
    · rw [if_neg hr, if_neg hr]
      rfl

/-! ### A block inside a block -/

/-- What `{ true { false` leaves, with no room on the stack. -/
def twoOpen : Session :=
  ⟨⟨[.boolean true], some 1⟩, [⟨1, [.boolean false]⟩], 2, 2⟩

/-- The tokens of `nop {add} if`: a word without meaning, and operands that are not there. -/
def failingTokens : List Token :=
  [.operator .noOp, .operator .openBrace, .operator .add, .operator .closeBrace, .operator .ifTrue]

/-- The block goes into the recording around it, where braces may just nest deep enough. -/
theorem acceptAll_braced_failingTokens :
    1 ≤ twoOpen.depth ∧ Matched 0 failingTokens ∧ twoOpen.depth + 1 + nesting 0 failingTokens ≤ 4 ∧
      ∃ (p : Procedure) (opened : Nat), p.tokens = failingTokens ∧
        acceptAll .machine 0 { maxNestingDepth := 4 }
            (.operator .openBrace :: (failingTokens ++ [.operator .closeBrace])) twoOpen =
          some (.ok ⟨⟨[.boolean true], some 1⟩, [⟨1, [.block p.origin p.body, .boolean false]⟩], 2,
            opened⟩) := by
  have hmatched : Matched 0 failingTokens := by simp [Matched, failingTokens, Token.depthAfter]
  obtain ⟨p, opened, htokens, -, -, hp⟩ :=
    acceptAll_braced { maxNestingDepth := 4 } twoOpen failingTokens (by decide) hmatched (by decide)
  exact ⟨by decide, hmatched, by decide, p, opened, htokens, (hp .machine 0).2.1 _ _ rfl⟩

end Session

end TypeFour
