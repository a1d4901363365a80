import TypeFour.Proofs.Recording
import TypeFour.Proofs.WellFormed

/-!
# `TypeFour.Proofs.Blocks` — procedures are the blocks of the text

Whatever a program does with its procedures, it never makes one. Each procedure that an evaluation comes to,
on a stack or inside another procedure, is what stands between an opening brace of the text and the brace
that closes it, and it carries the number of that brace. A text that ends inside braces is taken with the
braces that it lacks.

The invariant of a session names for each recording the place in the text where its block opens: what has
been recorded so far is a phrase, and the tokens before it account for the recordings around
(`RecordedFrom`). A closing brace makes of that phrase one block of the phrase around it.

## Contents
- `tokensOf`, `opens`, `Phrase.append` — the tokens of a text, their opening braces, phrases in a row.
- `Procedure.IsBlockAt`, `IsBlockAt.origin_eq_iff`, `IsBlockOf.inner` — where a procedure stands in the text.
- `RecordedFrom`, `Session.Traced`, `Traced.accept`, `run_traced` — the invariant, and what keeps it.
- `Met.cases_words`, `Met.all`, `Met.fits`, `Met.blocks` — the stacks of an evaluation.
- `met_procedures` — all of it; `met_procedures_emptyTwice` — blocks that read alike.
-/

namespace TypeFour

variable {e : Elementary} {n : Nat} {o : Options}

/-! ## The tokens of a text -/

namespace Token

/-- What a word means where one without meaning stands for `noOp`. -/
def ofWordLeniently (w : Word) : Token :=
  (ofWord .lenient w).toOption.getD (.operator .noOp)

/-- The policy does not decide what a word means, only whether it may stand there. -/
theorem ofWordLeniently_of_ok {policy : UnknownTokens} {w : Word} {t : Token} (h : ofWord policy w = .ok t) :
    ofWordLeniently w = t := by
  have hlenient : ofWord .lenient w = .ok t := by
    cases policy with
    | lenient => exact h
    | strict => exact ofWord_of_strict h .lenient
  rw [ofWordLeniently, hlenient]
  rfl

/-- The token is an opening brace. -/
def isOpen : Token → Bool
  | .operator .openBrace => true
  | _ => false

theorem isOpen_plain {t : Token} (h : t.isBrace = false) : t.isOpen = false := by
  cases t with
  | number x => rfl
  | boolean b => rfl
  | operator op =>
    cases op with
    | openBrace => cases h
    | _ => rfl

end Token

/-- The tokens of a text. -/
def tokensOf (text : List UInt8) : List Token :=
  (words text).map Token.ofWordLeniently

/-- How many of the tokens are opening braces. -/
def opens (ts : List Token) : Nat :=
  ts.countP Token.isOpen

theorem opens_append (ts rest : List Token) : opens (ts ++ rest) = opens ts + opens rest :=
  List.countP_append

theorem opens_open (ts : List Token) : opens (.operator .openBrace :: ts) = opens ts + 1 :=
  List.countP_cons_of_pos rfl

theorem opens_close (ts : List Token) : opens (.operator .closeBrace :: ts) = opens ts :=
  List.countP_cons_of_neg (by decide)

theorem opens_plain {t : Token} (h : t.isBrace = false) (ts : List Token) : opens (t :: ts) = opens ts :=
  List.countP_cons_of_neg (by simp [Token.isOpen_plain h])

namespace Phrase

/-- A phrase opens its blocks. -/
theorem opens_tokens (T : Phrase) : opens T.tokens = T.blocks := by
  induction T with
  | nil => rfl
  | token t plain rest ih => rw [tokens, opens_plain plain, ih, blocks]
  | block inner rest ihi ihr =>
    rw [tokens, opens_open, opens_append, opens_close, ihi, ihr, blocks]
    omega

/-- A phrase leaves no brace open. -/
theorem foldl_depthAfter_tokens (T : Phrase) (d : Nat) : T.tokens.foldl Token.depthAfter d = d := by
  induction T generalizing d with
  | nil => rfl
  | token t plain rest ih => rw [tokens, List.foldl_cons, Token.depthAfter_plain plain, ih]
  | block inner rest ihi ihr =>
    rw [tokens, List.foldl_cons, List.foldl_append, ihi, List.foldl_cons]
    exact ihr d

/-- One phrase after another. -/
def append : Phrase → Phrase → Phrase
  | nil, U => U
  | token t plain rest, U => token t plain (rest.append U)
  | block inner rest, U => block inner (rest.append U)

theorem tokens_append (T U : Phrase) : (T.append U).tokens = T.tokens ++ U.tokens := by
  induction T with
  | nil => rfl
  | token t plain rest ih => rw [append, tokens, tokens, ih, List.cons_append]
  | block inner rest _ ih => simp [append, tokens, ih]

theorem record_append (T U : Phrase) (k : Nat) :
    (T.append U).record k = T.record k ++ U.record (k + T.blocks) := by
  induction T generalizing k with
  | nil => rfl
  | token t plain rest ih => rw [append, record, record, ih, blocks, List.cons_append]
  | block inner rest _ ih => rw [append, record, record, ih, blocks, List.cons_append, Nat.add_assoc]

/-- A block among the instructions stands between two phrases. -/
theorem exists_of_mem_record {T : Phrase} {k origin : Nat} {body : List Instruction}
    (h : .block origin body ∈ T.record k) : ∃ A inner B : Phrase,
      T.tokens = A.tokens ++ .operator .openBrace :: (inner.tokens ++ .operator .closeBrace :: B.tokens) ∧
        origin = k + A.blocks ∧ body = inner.record (origin + 1) := by
  induction T generalizing k with
  | nil => cases h
  | token t plain rest ih =>
    have hmem : .block origin body ∈ rest.record k := by
      rcases List.mem_cons.mp h with heq | hmem
      · cases t <;> cases heq
      · exact hmem
    obtain ⟨A, inner, B, htokens, horigin, hbody⟩ := ih hmem
    exact ⟨.token t plain A, inner, B, by rw [tokens, tokens, htokens, List.cons_append], horigin, hbody⟩
  | block first rest _ ih =>
    rcases List.mem_cons.mp h with heq | hmem
    · cases heq
      exact ⟨.nil, first, rest, rfl, rfl, rfl⟩
    · obtain ⟨A, inner, B, htokens, horigin, hbody⟩ := ih hmem
      refine ⟨.block first A, inner, B, ?_, ?_, hbody⟩
      · simp [tokens, htokens]
      · rw [horigin, blocks]
        omega

end Phrase

/-! ## Blocks -/

namespace Procedure

/-- The procedure is the block that opens after the tokens `before`, inside another brace: it has the number
of that brace, and its instructions are what the tokens up to the matching brace are recorded as. -/
structure IsBlockAt (p : Procedure) (ts before : List Token) : Prop where
  found : ∃ (T : Phrase) (after : List Token),
    ts = before ++ .operator .openBrace :: (T.tokens ++ .operator .closeBrace :: after) ∧
      p.body = T.record (p.origin + 1)
  inside : 1 ≤ before.foldl Token.depthAfter 0
  origin : p.origin = opens before

/-- The procedure is a block among these tokens. -/
def IsBlockOf (ts : List Token) (p : Procedure) : Prop :=
  ∃ before, p.IsBlockAt ts before

/-- The procedure `q` is `p` or stands inside it. -/
inductive Inside (q : Procedure) : Procedure → Prop where
  | self : Inside q q
  | block {p : Procedure} {origin : Nat} {body : List Instruction} :
      .block origin body ∈ p.body → Inside q ⟨origin, body⟩ → Inside q p

variable {p q : Procedure} {ts before before' : List Token}

/-- The tokens between the braces are those that the procedure was recorded from. -/
theorem IsBlockAt.contents (h : p.IsBlockAt ts before) : ∃ after,
    ts = before ++ .operator .openBrace :: (p.tokens ++ .operator .closeBrace :: after) := by
  obtain ⟨T, after, hts, hbody⟩ := h.found
  exact ⟨after, by rw [hts, Procedure.tokens, hbody, T.tokens_record]⟩

theorem IsBlockAt.append (h : p.IsBlockAt ts before) (rest : List Token) :
    p.IsBlockAt (ts ++ rest) before := by
  obtain ⟨T, after, hts, hbody⟩ := h.found
  exact ⟨⟨T, after ++ rest, by simp [hts], hbody⟩, h.inside, h.origin⟩

theorem IsBlockOf.append (h : p.IsBlockOf ts) (rest : List Token) : p.IsBlockOf (ts ++ rest) := by
  obtain ⟨before, hbefore⟩ := h
  exact ⟨before, hbefore.append rest⟩

/-- Of two opening braces among the same tokens the later one has more before it. -/
theorem eq_of_opens_eq {front front' : List Token} (h : front ++ .operator .openBrace :: before =
    front' ++ .operator .openBrace :: before') (hopens : opens front = opens front') : front = front' := by
  rcases List.append_eq_append_iff.mp h with ⟨mid, rfl, hmid⟩ | ⟨mid, rfl, hmid⟩
  · cases mid with
    | nil => simp
    | cons t mid =>
      cases hmid
      rw [opens_append, opens_open] at hopens
      omega
  · cases mid with
    | nil => simp
    | cons t mid =>
      cases hmid
      rw [opens_append, opens_open] at hopens
      omega

/-- **Procedures are the same** when they come from the same brace. -/
theorem IsBlockAt.origin_eq_iff (hp : p.IsBlockAt ts before) (hq : q.IsBlockAt ts before') :
    p.origin = q.origin ↔ before = before' := by
  rw [hp.origin, hq.origin]
  constructor
  · intro hopens
    obtain ⟨T, after, hts, -⟩ := hp.found
    obtain ⟨U, after', hts', -⟩ := hq.found
    exact eq_of_opens_eq (hts.symm.trans hts') hopens
  · rintro rfl
    rfl

/-- A block is found in one place only. -/
theorem IsBlockAt.unique (h : p.IsBlockAt ts before) (h' : p.IsBlockAt ts before') : before = before' :=
  (h.origin_eq_iff h').mp rfl

/-- The blocks inside a block are blocks. -/
theorem IsBlockOf.inner (h : p.IsBlockOf ts) : ∀ i ∈ p.body, i.Meets (IsBlockOf ts) := by
  obtain ⟨before, ⟨T, after, hts, hbody⟩, hinside, horigin⟩ := h
  intro i hi
  cases i with
  | number x => trivial
  | boolean b => trivial
  | operator op => trivial
  | block origin body =>
    rw [hbody] at hi
    obtain ⟨A, inner, B, htokens, hnumber, hinner⟩ := Phrase.exists_of_mem_record hi
    refine ⟨before ++ .operator .openBrace :: A.tokens, ⟨inner, B.tokens ++ .operator .closeBrace :: after,
      ?_, hinner⟩, ?_, ?_⟩
    · simp [hts, htokens]
    · -- one more brace is open
      rw [List.foldl_append, List.foldl_cons, A.foldl_depthAfter_tokens]
      exact Nat.le_add_left 1 _
    · rw [opens_append, opens_open, A.opens_tokens, ← horigin]
      show origin = _
      omega

theorem Inside.isBlockOf (h : q.Inside p) (hp : p.IsBlockOf ts) : q.IsBlockOf ts := by
  induction h with
  | self => exact hp
  | block hmem _ ih => exact ih (hp.inner _ hmem)

end Procedure

/-! ## A session among its tokens -/

/-- The recordings are of the blocks that the tokens have not closed. -/
def RecordedFrom : List Token → List Recording → Prop
  | _, [] => True
  | ts, r :: rs => ∃ (before : List Token) (T : Phrase), ts = before ++ .operator .openBrace :: T.tokens ∧
      1 ≤ before.foldl Token.depthAfter 0 ∧ r.origin = opens before ∧
      r.latest.reverse = T.record (r.origin + 1) ∧ RecordedFrom before rs

/-- The tokens `X` are one instruction more. -/
theorem RecordedFrom.add {ts : List Token} {r : Recording} {rs : List Recording} {i : Instruction} {X : Phrase}
    (h : RecordedFrom ts (r :: rs)) (hX : X.record (opens ts) = [i]) :
    RecordedFrom (ts ++ X.tokens) (r.add i :: rs) := by
  obtain ⟨before, T, rfl, hinside, horigin, hlatest, hrs⟩ := h
  refine ⟨before, T.append X, ?_, hinside, horigin, ?_, hrs⟩
  · simp [T.tokens_append]
  · have hnumber : opens (before ++ .operator .openBrace :: T.tokens) = r.origin + 1 + T.blocks := by
      rw [opens_append, opens_open, T.opens_tokens, horigin]
      omega
    rw [hnumber] at hX
    rw [T.record_append]
    show (i :: r.latest).reverse = T.record (r.origin + 1) ++ X.record (r.origin + 1 + T.blocks)
    rw [List.reverse_cons, hlatest, hX]

/-- The phrase that is one token. -/
abbrev Phrase.single {t : Token} (plain : t.isBrace = false) : Phrase :=
  .token t plain .nil

namespace Session

/-- What a session holds is what the tokens before it say: all procedures are blocks of these tokens, and the
recordings are of those that are still open. -/
structure Traced (o : Options) (ts : List Token) (s : Session) : Prop where
  opened : s.opened = opens ts
  recorded : RecordedFrom ts s.recordings
  stack : s.stack.All (Procedure.IsBlockOf ts) o.maxStackDepth

/-- At the beginning there are numbers only. -/
theorem traced_of_inputs {inputs : List Float} {stack : Stack}
    (h : Action.outcome (Stack.pushNumbers inputs) { limit := o.maxStackDepth } = .ok stack) :
    Traced o [] { stack } := by
  obtain ⟨_, hpush⟩ := Action.outcome_eq_ok h
  exact ⟨rfl, trivial, .of_inputs hpush⟩

/-- A value is delivered, the tokens `X` being recorded as the instruction that pushes it. -/
theorem deliver_traced {v : Value} {s u : Session} {ts : List Token} {X : Phrase}
    (hopened : s.opened = opens (ts ++ X.tokens)) (hrec : RecordedFrom ts s.recordings)
    (hstack : s.stack.All (Procedure.IsBlockOf (ts ++ X.tokens)) o.maxStackDepth)
    (hv : v.Meets (Procedure.IsBlockOf (ts ++ X.tokens))) (hX : X.record (opens ts) = [v.toInstruction])
    (h : s.deliver v = .ok u) : Traced o (ts ++ X.tokens) u := by
  obtain ⟨r, rs, hr, rfl⟩ | ⟨hr, t, hpush, rfl⟩ := deliver_ok h
  · rw [hr] at hrec
    exact ⟨hopened, hrec.add hX, hstack⟩
  · exact ⟨hopened, hr ▸ trivial, hstack.push hv hpush⟩

namespace Traced

variable {s u : Session} {ts : List Token} (h : s.Traced o ts)

include h

/-- More tokens leave the procedures on the stack what they are. -/
theorem stack_append (rest : List Token) :
    s.stack.All (Procedure.IsBlockOf (ts ++ rest)) o.maxStackDepth :=
  h.stack.imp fun _ hp => hp.append rest

/-- A token that is no brace opens none. -/
theorem opened_plain {t : Token} (plain : t.isBrace = false) : s.opened = opens (ts ++ [t]) := by
  rw [h.opened, opens_append, opens_plain plain]
  rfl

theorem deliver {t : Token} {v : Value} (plain : t.isBrace = false)
    (ht : t.toInstruction = v.toInstruction) (hv : v.Meets (Procedure.IsBlockOf (ts ++ [t])))
    (hr : s.deliver v = .ok u) : u.Traced o (ts ++ [t]) :=
  deliver_traced (X := .single plain) (h.opened_plain plain) h.recorded (h.stack_append [t]) hv
    (congrArg ([·]) ht) hr

theorem operate {op : Operator} (plain : (Token.operator op).isBrace = false)
    (hr : s.operate e n op = some (.ok u)) : u.Traced o (ts ++ [.operator op]) := by
  have hopened := h.opened_plain plain
  have hstack := h.stack_append [.operator op]
  obtain ⟨r, rs, hrec, rfl⟩ | ⟨hrec, t, hx, rfl⟩ := operate_ok hr
  · have hrecorded := h.recorded
    rw [hrec] at hrecorded
    exact ⟨hopened, hrecorded.add (X := .single plain) rfl, hstack⟩
  · exact ⟨hopened, hrec ▸ trivial, hstack.execute (fun _ => Procedure.IsBlockOf.inner) hx⟩

theorem openBlock (hdepth : s.depth = ts.foldl Token.depthAfter 0)
    (hlen : s.recordings.length = s.depth - 1) (hr : s.openBlock o = .ok u) :
    u.Traced o (ts ++ [.operator .openBrace]) := by
  have hopened : s.opened + 1 = opens (ts ++ [.operator .openBrace]) := by
    rw [h.opened, opens_append, opens_open]
    rfl
  have hstack := h.stack_append [.operator .openBrace]
  obtain ⟨-, rfl⟩ := openBlock_ok hr
  by_cases hd : s.depth = 0
  · -- the outermost brace records nothing
    rw [hd] at hlen
    have hnone : RecordedFrom (ts ++ [.operator .openBrace]) s.recordings :=
      List.eq_nil_of_length_eq_zero hlen ▸ trivial
    rw [if_pos hd]
    exact ⟨hopened, hnone, hstack⟩
  · have hinside : 1 ≤ ts.foldl Token.depthAfter 0 := hdepth ▸ Nat.one_le_iff_ne_zero.mpr hd
    rw [if_neg hd]
    exact ⟨hopened, ⟨ts, .nil, rfl, hinside, h.opened, rfl, h.recorded⟩, hstack⟩

theorem closeBlock (hlen : s.recordings.length = s.depth - 1) (hr : s.closeBlock o = .ok u) :
    u.Traced o (ts ++ [.operator .closeBrace]) := by
  have hopened : s.opened = opens (ts ++ [.operator .closeBrace]) := by
    rw [h.opened, opens_append, opens_close]
    rfl
  have hstack := h.stack_append [.operator .closeBrace]
  -- outside the outermost block nothing is recorded
  have hnone (hd : s.depth ≤ 1) : RecordedFrom (ts ++ [.operator .closeBrace]) s.recordings := by
    have hzero : s.recordings.length = 0 := by omega
    exact List.eq_nil_of_length_eq_zero hzero ▸ trivial
  obtain ⟨hd, -, rfl⟩ | ⟨hd, rfl⟩ | ⟨d, hd, ⟨hrec, rfl⟩ | ⟨r, rs, v, hrec, hdel, rfl⟩⟩ := closeBlock_ok hr
  · exact ⟨hopened, hnone (by omega), hstack⟩
  · exact ⟨hopened, hnone (by omega), hstack⟩
  · rw [hrec, hd] at hlen
    cases hlen
  · -- the recording is of the block that this brace closes, which is one phrase with its braces
    have hrecorded := h.recorded
    rw [hrec] at hrecorded
    obtain ⟨before, T, rfl, hinside, horigin, hlatest, hrs⟩ := hrecorded
    have htokens : before ++ .operator .openBrace :: T.tokens ++ [.operator .closeBrace] =
        before ++ T.braced.tokens := by
      simp [Phrase.tokens]
    rw [htokens] at hopened hstack ⊢
    have hblock : r.toProcedure.IsBlockOf (before ++ T.braced.tokens) :=
      ⟨before, ⟨T, [], rfl, hlatest⟩, hinside, horigin⟩
    have hX : T.braced.record (opens before) = [(Value.procedure r.toProcedure).toInstruction] := by
      show [Instruction.block (opens before) (T.record (opens before + 1))] = [.block r.origin r.latest.reverse]
      rw [hlatest, horigin]
    have hv := deliver_traced (s := { s with recordings := rs }) (v := .procedure r.toProcedure)
      hopened hrs hstack hblock hX hdel
    exact ⟨hv.opened, hv.recorded, hv.stack⟩

/-- **One token.** -/
theorem accept {t : Token} (hdepth : s.depth = ts.foldl Token.depthAfter 0)
    (hlen : s.recordings.length = s.depth - 1) (hr : s.accept e n o t = some (.ok u)) :
    u.Traced o (ts ++ [t]) := by
  cases t with
  | number x => exact h.deliver (v := .number x) rfl rfl trivial (Option.some.inj hr)
  | boolean b => exact h.deliver (v := .boolean b) rfl rfl trivial (Option.some.inj hr)
  | operator op =>
    cases op with
    | openBrace => exact h.openBlock hdepth hlen (Option.some.inj hr)
    | closeBrace => exact h.closeBlock hlen (Option.some.inj hr)
    | _ => exact h.operate (e := e) (n := n) rfl hr

end Traced

/-- **All words.** -/
theorem run_traced {ws : List Word} {ts : List Token} {s u : Session} (hs : s.Nested o)
    (hdepth : s.depth = ts.foldl Token.depthAfter 0) (h : s.Traced o ts)
    (hr : run e n o ws s = some (.ok u)) : u.Traced o (ts ++ ws.map Token.ofWordLeniently) := by
  induction ws generalizing ts s with
  | nil =>
    cases hr
    rw [List.map_nil, List.append_nil]
    exact h
  | cons w ws ih =>
    obtain ⟨t, ht, ⟨-, hnone⟩ | ⟨v, hv, hr⟩⟩ := run_cons_cases hr (by simp)
    · cases hnone
    have hafter : v.depth = (ts ++ [t]).foldl Token.depthAfter 0 := by
      rw [accept_depth hv, hdepth, List.foldl_append]
      rfl
    have hrest := ih (hs.accept hv) hafter (h.accept hdepth hs.recordings hv) hr
    rw [List.map_cons, Token.ofWordLeniently_of_ok ht]
    rwa [List.append_assoc, List.singleton_append] at hrest

/-- Between two words all procedures are blocks of the text. -/
theorem isBlockOf_of_run {ws rest : List Word} {inputs : List Float} {stack : Stack} {s : Session}
    (hinputs : Action.outcome (Stack.pushNumbers inputs) { limit := o.maxStackDepth } = .ok stack)
    (hr : run e n o ws { stack } = some (.ok s)) :
    s.stack.All (Procedure.IsBlockOf ((ws ++ rest).map Token.ofWordLeniently)) o.maxStackDepth := by
  have htraced := run_traced (nested_of_inputs hinputs) rfl (traced_of_inputs hinputs) hr
  rw [List.map_append]
  exact htraced.stack_append _

end Session

/-! ## The stacks of an evaluation -/

variable {source : Source} {inputs : List Float} {t : Stack}

theorem words_isPrefix_closed (text : List UInt8) : words text <+: words (closed text) :=
  ⟨_, (words_append_closers text _).symm⟩

/-- The end of the data, tolerated inside braces, is met by the closed text. -/
theorem Session.finish_met {text : List UInt8} {stack : Stack} {s : Session}
    (hinputs : Action.outcome (Stack.pushNumbers inputs) { limit := o.maxStackDepth } = .ok stack)
    (hr : run e n o (words text) { stack } = some (.ok s)) (h : s.finish o = .ok t) :
    Session.Met e o (words (closed text)) { stack } t := by
  by_cases hdepth : s.depth = 0
  · rw [finish, if_pos hdepth] at h
    cases h
    exact .between (words_isPrefix_closed text) hr
  · have hpolicy : { o with truncatedInput := .tolerate } = o := by
      cases ho : o.truncatedInput with
      | tolerate => rw [← ho]
      | fail =>
        rw [finish, if_neg hdepth, ho] at h
        cases h
    have hleft : s.depth = leftOpen text := run_depth hr
    have hclosed : run e n o (words (closed text)) { stack } = some (.ok ⟨t, [], 0, s.opened⟩) := by
      rw [closed, words_append_closers, run_append, hr, ← hleft]
      show run e n o (List.replicate s.depth [closeByte]) s = _
      rw [run_closers (run_nested (nested_of_inputs hinputs) hr).recordings, hpolicy, h]
      rfl
    exact .between List.prefix_rfl hclosed

/-- **The stacks of an evaluation** are met while the inputs are pushed, or while the words of the text are
worked through, with the braces that it lacks. -/
theorem Met.cases_words (h : Met e o source inputs t) :
    (∃ front, front <+: inputs ∧
      Run.Leaves (some (Stack.pushNumbers front { limit := o.maxStackDepth })) t) ∨
      ∃ stack, Action.outcome (Stack.pushNumbers inputs) { limit := o.maxStackDepth } = .ok stack ∧
        Session.Met e o (words (closed source.delivered.bytes)) { stack } t := by
  cases h with
  | pushed hfront ht => exact .inl ⟨_, hfront, ht⟩
  | read hinputs ht =>
    have hread := words_transcript_ofSource_isPrefix o.bufferCapacity source
    exact .inr ⟨_, hinputs, ht.of_isPrefix (hread.trans (words_isPrefix_closed _))⟩
  | @final _ n ht =>
    obtain ⟨f, hunread⟩ | ⟨hwraps, -⟩ := unread_or_read o inputs
    · cases (hunread.evaluate_eq e n o source rfl rfl).symm.trans ht
    obtain ⟨d, hbytes, hd⟩ := exists_delivered source
    have hclosed : words (closed d.bytes) <+: words (closed source.delivered.bytes) := by
      rcases hbytes with rfl | hnil
      · exact List.prefix_rfl
      · rw [hnil]
        exact List.nil_prefix
    have ht : d.evaluate e n o inputs = some (.ok t) := by
      rw [← ht, evaluate, hd _ hwraps]
      rfl
    obtain ⟨stack, s, hinputs, hrun, hfault, hfinish⟩ := Delivered.evaluate_ok ht
    rw [(Delivered.admitted_of_fault hfault).2] at hrun
    exact .inr ⟨stack, hinputs, (Session.finish_met hinputs hrun hfinish).of_isPrefix hclosed⟩

/-- **What all procedures have.** It is enough that inner blocks take it over, and that it holds between the
words. -/
theorem Met.all {ok : Procedure → Prop} (h : Met e o source inputs t)
    (hbody : ∀ p, ok p → ∀ i ∈ p.body, i.Meets ok)
    (hs : ∀ stack, Action.outcome (Stack.pushNumbers inputs) { limit := o.maxStackDepth } = .ok stack →
      ∀ before u n, before <+: words (closed source.delivered.bytes) →
        Session.run e n o before { stack } = some (.ok u) → u.stack.All ok o.maxStackDepth) :
    t.All ok o.maxStackDepth := by
  rcases h.cases_words with ⟨front, -, ht⟩ | ⟨stack, hinputs, ht⟩
  · exact .of_inputs_leave ht
  · exact ht.all hbody (hs stack hinputs)

/-- Procedures on a stack could be recorded at depth two. -/
theorem Met.fits (h : Met e o source inputs t) :
    t.All (Procedure.Fits o.maxNestingDepth) o.maxStackDepth := by
  apply h.all (fun _ => Procedure.Fits.inner)
  intro stack hinputs before u n _ hu
  exact (Session.run_nested (nested_of_inputs hinputs) hu).stack

/-- Procedures on a stack are blocks of the text. -/
theorem Met.blocks (h : Met e o source inputs t) :
    t.All (Procedure.IsBlockOf (tokensOf (closed source.delivered.bytes))) o.maxStackDepth := by
  apply h.all (fun _ => Procedure.IsBlockOf.inner)
  rintro stack hinputs before u n ⟨rest, hrest⟩ hu
  have hblocks : u.stack.All (Procedure.IsBlockOf ((before ++ rest).map Token.ofWordLeniently))
      o.maxStackDepth := Session.isBlockOf_of_run hinputs hu
  rwa [hrest] at hblocks

/-- The procedure is on some stack of the evaluation, or inside a procedure there. -/
def MetProcedure (e : Elementary) (o : Options) (source : Source) (inputs : List Float) (p : Procedure) :
    Prop :=
  ∃ t, Met e o source inputs t ∧ ∃ r, .procedure r ∈ t.items ∧ p.Inside r

theorem MetProcedure.isBlockOf {p : Procedure} (h : MetProcedure e o source inputs p) :
    p.IsBlockOf (tokensOf (closed source.delivered.bytes)) := by
  obtain ⟨t, ht, r, hr, hp⟩ := h
  exact hp.isBlockOf (ht.blocks.items _ hr)

/-! ## Comparison -/

theorem Value.beq_procedure (p q : Procedure) :
    (Value.procedure p == .procedure q) = (p.origin == q.origin) := rfl

/-- The operators that compare, with two values on the stack. -/
theorem execute_equality (again : List Instruction → Stack → Run) (v w : Value) (items : List Value)
    (limit : Option Nat) :
    execute e again .eq ⟨w :: v :: items, limit⟩ = some (Stack.push (.boolean (v == w)) ⟨items, limit⟩) ∧
      execute e again .ne ⟨w :: v :: items, limit⟩ =
        some (Stack.push (.boolean !(v == w)) ⟨items, limit⟩) := by
  constructor
  · show some (Stack.push (.boolean ((v == w) != false)) ⟨items, limit⟩) = _
    rw [Bool.bne_false]
  · show some (Stack.push (.boolean ((v == w) != true)) ⟨items, limit⟩) = _
    rw [Bool.bne_true]

/-- **Procedures are the blocks of the text**, at every moment of every evaluation. Each procedure on a stack,
or inside another there, is what stands between one opening brace of the text and the brace that closes it,
inside a further brace; no other block of the text is that procedure. Two of them compare as equal, by `==`,
`eq` and `ne`, exactly when they come from the same brace. And those on a stack nest less deep than the limit
allows, by two. -/
theorem met_procedures (e : Elementary) (o : Options) (source : Source) (inputs : List Float) :
    (∀ t, Met e o source inputs t → ∀ p, .procedure p ∈ t.items → p.height + 2 ≤ o.maxNestingDepth) ∧
    (∀ p, MetProcedure e o source inputs p → ∃ before after,
      tokensOf (closed source.delivered.bytes) =
          before ++ .operator .openBrace :: (p.tokens ++ .operator .closeBrace :: after) ∧
        p.IsBlockAt (tokensOf (closed source.delivered.bytes)) before ∧
        ∀ before', p.IsBlockAt (tokensOf (closed source.delivered.bytes)) before' → before' = before) ∧
    ∀ p q, MetProcedure e o source inputs p → MetProcedure e o source inputs q → ∀ before before',
      p.IsBlockAt (tokensOf (closed source.delivered.bytes)) before →
      q.IsBlockAt (tokensOf (closed source.delivered.bytes)) before' →
      ∃ same : Bool, (same = true ↔ before = before') ∧ (Value.procedure p == .procedure q) = same ∧
        ∀ again items limit,
          execute e again .eq ⟨.procedure q :: .procedure p :: items, limit⟩ =
              some (Stack.push (.boolean same) ⟨items, limit⟩) ∧
            execute e again .ne ⟨.procedure q :: .procedure p :: items, limit⟩ =
              some (Stack.push (.boolean !same) ⟨items, limit⟩) := by
  refine ⟨?_, ?_, ?_⟩
  · intro t ht p hp
    exact ht.fits.items _ hp
  · intro p hp
    obtain ⟨before, hbefore⟩ := hp.isBlockOf
    obtain ⟨after, hafter⟩ := hbefore.contents
    exact ⟨before, after, hafter, hbefore, fun before' h' => h'.unique hbefore⟩
  · intro p q _ _ before before' hp hq
    refine ⟨Value.procedure p == .procedure q, ?_, rfl, fun again items limit => ?_⟩
    · rw [Value.beq_procedure, beq_iff_eq]
      exact hp.origin_eq_iff hq
    · exact execute_equality again _ _ items limit

/-! ### Blocks that read alike -/

/-- The text `{{{}}dup true exch if{}}`: a block with an empty one inside, a copy of it that is replayed, and
another empty block. -/
def emptyTwice : List UInt8 :=
  [0x7B, 0x7B, 0x7B, 0x7D, 0x7D, 0x64, 0x75, 0x70, 0x20] ++ replayTop ++ [0x7B, 0x7D, 0x7D]

/-- The block with an empty one inside. -/
def aroundEmpty : Procedure :=
  ⟨1, [.block 2 []]⟩

/-- The stack in the replay, after its only instruction. -/
def emptyOnce : Stack :=
  ⟨[.procedure ⟨2, []⟩, .procedure aroundEmpty], some 100⟩

theorem met_emptyOnce : Met .machine {} (.ofBytes emptyTwice) [] emptyOnce := by
  have hwords : (Reader.ofSource 256 (.ofBytes emptyTwice)).transcript.words = words emptyTwice := by
    rw [transcript_ofSource (Source.ofBytes_delivers _).most (by decide), (Source.ofBytes_delivers _).delivered]
    rfl
  have hchosen : Session.Chosen .machine {} (words emptyTwice) { stack := ⟨[], some 100⟩ } aroundEmpty
      ⟨[.procedure aroundEmpty], some 100⟩ :=
    ⟨(words emptyTwice).take 8, [0x69, 0x66], (words emptyTwice).drop 9,
      ⟨⟨[.procedure aroundEmpty, .boolean true, .procedure aroundEmpty], some 100⟩, [], 1, 3⟩, 0, .ifTrue,
      rfl, rfl, rfl, rfl, _, rfl, rfl⟩
  have hreplay : (replay .machine 1 aroundEmpty.body ⟨[.procedure aroundEmpty], some 100⟩).Leaves emptyOnce :=
    .ok
  refine .read rfl ?_
  rw [show ({} : Options).bufferCapacity = 256 from rfl, hwords]
  exact .within hchosen (.between (List.append_nil _).symm hreplay)

/-- The stack at the end. -/
def emptyTwiceLeft : Stack :=
  ⟨[.procedure ⟨3, []⟩, .procedure ⟨2, []⟩, .procedure aroundEmpty], some 100⟩

theorem met_emptyTwiceLeft : Met .machine {} (.ofBytes emptyTwice) [] emptyTwiceLeft :=
  .final (n := 1) ((evaluate_of_inputs (Source.ofBytes_delivers _).most (by decide) rfl).trans (by rfl))

/-- The empty block that was pushed in the replay is not the one that stands at the end of the text. -/
theorem met_procedures_emptyTwice :
    Met .machine {} (.ofBytes emptyTwice) [] emptyOnce ∧
      Met .machine {} (.ofBytes emptyTwice) [] emptyTwiceLeft ∧
      (Value.procedure ⟨2, []⟩ == .procedure ⟨3, []⟩) = false ∧
      execute .machine (replay .machine 0) .ne emptyTwiceLeft =
        some (.ok () ⟨[.boolean true, .procedure aroundEmpty], some 100⟩) := by
  obtain ⟨-, hblocks, hcompare⟩ := met_procedures .machine {} (.ofBytes emptyTwice) []
  have hinner : MetProcedure .machine {} (.ofBytes emptyTwice) [] ⟨2, []⟩ :=
    ⟨_, met_emptyOnce, _, List.mem_cons_self, .self⟩
  have hlast : MetProcedure .machine {} (.ofBytes emptyTwice) [] ⟨3, []⟩ :=
    ⟨_, met_emptyTwiceLeft, _, List.mem_cons_self, .self⟩
  obtain ⟨before, -, -, hbefore, -⟩ := hblocks _ hinner
  obtain ⟨before', -, -, hbefore', -⟩ := hblocks _ hlast
  obtain ⟨same, hsame, hbeq, hops⟩ := hcompare _ _ hinner hlast _ _ hbefore hbefore'
  obtain rfl : same = false := by
    rw [← Bool.not_eq_true, hsame]
    rintro rfl
    exact absurd (hbefore.origin.trans hbefore'.origin.symm) (by decide)
  exact ⟨met_emptyOnce, met_emptyTwiceLeft, hbeq, (hops (replay .machine 0) _ _).2.trans rfl⟩

end TypeFour
