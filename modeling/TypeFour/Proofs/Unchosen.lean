import TypeFour.Proofs.Blocks
import TypeFour.Proofs.Lockstep
import TypeFour.Proofs.NoOps

/-!
# `TypeFour.Proofs.Unchosen` — a block that is not chosen leaves no trace

Operators copy procedures, drop them and compare where they come from, and none looks inside one. So what
stands in a block matters only when the block is replayed. If it is not, a program goes on in the same way
with any other contents in its place, and ends with the same fault or with the same stack, on which the block
and the blocks around it show the other contents.

The two runs are in lockstep from the end of the block on. The relation is a function (`Procedure.exchange`)
where it is defined at all: no other block on the first side comes from inside the exchanged one, as these
are only found within it (`Procedure.Clear`), and the braces after it have numbers of their own on both sides.

## Contents
- `Exchange`, `Procedure.exchange`, `Procedure.Clear` — a block with other contents.
- `Simulation.exchanging`, `exchanging_body`, `exchanging_paired` — as a simulation.
- `Phrase.record_before`, `Session.lockstep_after` — what was recorded before the block.
- `Contents`, `withBlock` — the texts of both programs.
- `Session.run_withBlock`, `evaluate_exchange` — both runs.
-/

namespace TypeFour

/-! ## Other contents for a block -/

/-- A block of a text, by the number of its opening brace, and what may stand between its braces: its own
contents, and others. -/
structure Exchange where
  number : Nat
  own : Phrase
  other : Phrase

namespace Exchange

/-- The number of a brace when the block has its other contents. Braces of its own contents have none. -/
def renumber (x : Exchange) (k : Nat) : Nat :=
  if k ≤ x.number then k else k - x.own.blocks + x.other.blocks

/-- The number is not one of those inside the block. -/
def Outside (x : Exchange) (k : Nat) : Prop :=
  k ≤ x.number ∨ x.number + x.own.blocks < k

end Exchange

mutual

/-- The instruction when the block has its other contents. -/
def Instruction.exchange (x : Exchange) : Instruction → Instruction
  | .number n => .number n
  | .boolean b => .boolean b
  | .operator op => .operator op
  | .block k body =>
    .block (x.renumber k) (if k = x.number then x.other.record (x.number + 1) else exchangeAll x body)

/-- Instructions when the block has its other contents. -/
def exchangeAll (x : Exchange) : List Instruction → List Instruction
  | [] => []
  | i :: is => i.exchange x :: exchangeAll x is

end

/-- The procedure when the block has its other contents: if it is that block, it holds them; if it is not, what
stands inside it changes in the same way. Braces after the block have other numbers. -/
def Procedure.exchange (x : Exchange) (p : Procedure) : Procedure where
  origin := x.renumber p.origin
  body := if p.origin = x.number then x.other.record (x.number + 1) else exchangeAll x p.body

mutual

/-- No block of the instruction is from inside the block, but within the block itself. -/
def Instruction.Clear (x : Exchange) : Instruction → Prop
  | .block k body => x.Outside k ∧ (k = x.number ∨ ClearAll x body)
  | _ => True

/-- The same of all instructions. -/
def ClearAll (x : Exchange) : List Instruction → Prop
  | [] => True
  | i :: is => i.Clear x ∧ ClearAll x is

end

/-- The same of a procedure. -/
def Procedure.Clear (x : Exchange) (p : Procedure) : Prop :=
  x.Outside p.origin ∧ (p.origin = x.number ∨ ClearAll x p.body)

variable {x : Exchange}

/-! ## What an exchange changes -/

/-- The exchanged block holds the other contents. -/
theorem Procedure.tokens_exchange {p : Procedure} (h : p.origin = x.number) :
    (p.exchange x).tokens = x.other.tokens := by
  rw [Procedure.tokens, exchange, if_pos h, Phrase.tokens_record]

/-- The exchanged block is not the procedure, and stands nowhere inside it. -/
def Procedure.Without (x : Exchange) (p : Procedure) : Prop :=
  ∀ q : Procedure, q.Inside p → q.origin ≠ x.number

theorem Procedure.Without.inner {p : Procedure} (h : p.Without x) : ∀ i ∈ p.body, i.Meets (Without x) := by
  intro i hi
  cases i with
  | number n => trivial
  | boolean b => trivial
  | operator op => trivial
  | block k body => exact fun q hq => h q (.block hi hq)

mutual

theorem Instruction.tokens_exchange : ∀ i : Instruction, i.Meets (Procedure.Without x) →
    (i.exchange x).tokens = i.tokens
  | .number _, _ => rfl
  | .boolean _, _ => rfl
  | .operator _, _ => rfl
  | .block k body, h => by
    have hk : k ≠ x.number := h ⟨k, body⟩ .self
    have hbody := tokensAll_exchangeAll body (Procedure.Without.inner h)
    rw [Instruction.exchange, if_neg hk, Instruction.tokens, hbody, Instruction.tokens]

theorem tokensAll_exchangeAll : ∀ is : List Instruction, (∀ i ∈ is, i.Meets (Procedure.Without x)) →
    tokensAll (exchangeAll x is) = tokensAll is
  | [], _ => rfl
  | i :: is, h => by
    obtain ⟨hi, his⟩ := List.forall_mem_cons.mp h
    rw [exchangeAll, tokensAll, i.tokens_exchange hi, tokensAll_exchangeAll is his, tokensAll]

end

/-- A procedure without the exchanged block keeps its contents. -/
theorem Procedure.Without.tokens_exchange {p : Procedure} (h : p.Without x) :
    (p.exchange x).tokens = p.tokens := by
  rw [Procedure.tokens, exchange, if_neg (h p .self)]
  exact tokensAll_exchangeAll p.body h.inner

/-! ## Exchange as a simulation -/

namespace Exchange

/-- Numbers outside the block stay apart. -/
theorem renumber_eq_iff {j k : Nat} (hj : x.Outside j) (hk : x.Outside k) :
    x.renumber j = x.renumber k ↔ j = k := by
  unfold Outside at hj hk
  unfold renumber
  split <;> split <;> omega

theorem renumber_of_le {k : Nat} (h : k ≤ x.number) : x.renumber k = k :=
  if_pos h

/-- The braces after the block. -/
theorem renumber_after (j : Nat) :
    x.renumber (x.number + (x.own.blocks + 1) + j) = x.number + (x.other.blocks + 1) + j := by
  unfold renumber
  split <;> omega

/-- The procedures are the same, but for the contents of the block. -/
def Relates (x : Exchange) (p q : Procedure) : Prop :=
  p.Clear x ∧ q = p.exchange x

end Exchange

theorem instructionRelated_exchange {i j : Instruction} :
    InstructionRelated x.Relates i j ↔ i.Clear x ∧ j = i.exchange x := by
  constructor
  · intro h
    cases h with
    | number n => exact ⟨trivial, rfl⟩
    | boolean b => exact ⟨trivial, rfl⟩
    | operator op => exact ⟨trivial, rfl⟩
    | block hp =>
      obtain ⟨hclear, heq⟩ := hp
      cases heq
      exact ⟨hclear, rfl⟩
  · rintro ⟨hclear, rfl⟩
    cases i with
    | number n => exact .number n
    | boolean b => exact .boolean b
    | operator op => exact .operator op
    | block k body => exact .block ⟨hclear, rfl⟩

theorem forall₂_exchange {is js : List Instruction} :
    List.Forall₂ (InstructionRelated x.Relates) is js ↔ ClearAll x is ∧ js = exchangeAll x is := by
  constructor
  · intro h
    induction h with
    | nil => exact ⟨trivial, rfl⟩
    | cons hi _ ih =>
      obtain ⟨hclear, rfl⟩ := instructionRelated_exchange.mp hi
      obtain ⟨hall, rfl⟩ := ih
      exact ⟨⟨hclear, hall⟩, rfl⟩
  · rintro ⟨hclear, rfl⟩
    induction is with
    | nil => exact .nil
    | cons i is ih => exact .cons (instructionRelated_exchange.mpr ⟨hclear.1, rfl⟩) (ih hclear.2)

namespace Simulation

/-- The block with its own contents on one side and with the others on the other. -/
def exchanging (x : Exchange) (limit : Option Nat) : Simulation :=
  .pointwise x.Relates limit (by
    rintro p _ q _ ⟨hp, rfl⟩ ⟨hq, rfl⟩
    exact (Exchange.renumber_eq_iff hp.1 hq.1).symm)

variable {limit : Option Nat}

/-- Save for the block itself, related procedures have related instructions. -/
theorem exchanging_body (p q : Procedure) (h : (exchanging x limit).procedures p q)
    (hp : ¬p.origin = x.number) :
    List.Forall₂ (InstructionRelated (exchanging x limit).procedures) p.body q.body := by
  obtain ⟨⟨-, hclear⟩, rfl⟩ := h
  have hbody : (p.exchange x).body = exchangeAll x p.body := if_neg hp
  rw [hbody]
  exact forall₂_exchange.mpr ⟨hclear.resolve_left hp, rfl⟩

/-- Blocks that open before the block or after it are related when their instructions are. -/
theorem exchanging_paired {k : Nat} (hout : x.Outside k) (hk : k ≠ x.number) :
    (exchanging x limit).Paired k (x.renumber k) := by
  intro is js h
  obtain ⟨hclear, rfl⟩ := forall₂_exchange.mp h
  refine ⟨⟨hout, .inr hclear⟩, ?_⟩
  simp only [Procedure.exchange, if_neg hk]

end Simulation

/-! ## What has been recorded before -/

/-- A phrase before the block does not change. -/
theorem Phrase.record_before (T : Phrase) {k : Nat} (h : k + T.blocks ≤ x.number) :
    ClearAll x (T.record k) ∧ exchangeAll x (T.record k) = T.record k := by
  induction T generalizing k with
  | nil => exact ⟨trivial, rfl⟩
  | token t plain rest ih =>
    obtain ⟨hclear, heq⟩ := ih h
    cases t <;> exact ⟨⟨trivial, hclear⟩, congrArg _ heq⟩
  | block inner rest ihi ihr =>
    rw [blocks] at h
    obtain ⟨hclear, heq⟩ := ihi (k := k + 1) (by omega)
    obtain ⟨hclear', heq'⟩ := ihr (k := k + (inner.blocks + 1)) (by omega)
    have hne : k ≠ x.number := by omega
    have hle : k ≤ x.number := by omega
    refine ⟨⟨⟨.inl hle, .inr hclear⟩, hclear'⟩, ?_⟩
    rw [record, exchangeAll, Instruction.exchange, if_neg hne, heq, heq', Exchange.renumber_of_le hle]

/-- A block of the tokens before is the same with either contents. -/
theorem Procedure.IsBlockOf.relates_self {p : Procedure} {ts : List Token} (h : p.IsBlockOf ts)
    (hx : x.number = opens ts) : x.Relates p p := by
  obtain ⟨before, ⟨T, after, hts, hbody⟩, -, horigin⟩ := h
  have hbefore : p.origin + 1 + T.blocks ≤ x.number := by
    rw [hx, hts, opens_append, opens_open, opens_append, T.opens_tokens, horigin]
    omega
  obtain ⟨hclear, heq⟩ := T.record_before hbefore
  rw [← hbody] at hclear heq
  have hne : p.origin ≠ x.number := by omega
  have hle : p.origin ≤ x.number := by omega
  refine ⟨⟨.inl hle, .inr hclear⟩, ?_⟩
  rw [Procedure.exchange, if_neg hne, heq, Exchange.renumber_of_le hle]

/-- So is a recording of a block that the tokens before leave open. -/
theorem RecordedFrom.related_self {limit : Option Nat} {rs : List Recording} {ts : List Token}
    (h : RecordedFrom ts rs) (hx : opens ts ≤ x.number) :
    List.Forall₂ (Simulation.exchanging x limit).RecordingRelated rs rs := by
  induction rs generalizing ts with
  | nil => exact .nil
  | cons r rs ih =>
    obtain ⟨before, T, rfl, -, horigin, hlatest, hrs⟩ := h
    rw [opens_append, opens_open, T.opens_tokens] at hx
    have hbefore : r.origin + 1 + T.blocks ≤ x.number := by omega
    have hle : r.origin ≤ x.number := by omega
    have hne : r.origin ≠ x.number := by omega
    refine .cons ⟨?_, ?_⟩ (ih hrs (by omega))
    · have hpaired : (Simulation.exchanging x limit).Paired r.origin (x.renumber r.origin) :=
        Simulation.exchanging_paired (.inl hle) hne
      rwa [Exchange.renumber_of_le hle] at hpaired
    · obtain ⟨hclear, heq⟩ := T.record_before hbefore
      have hself := forall₂_exchange.mpr ⟨hclear, heq.symm⟩
      rw [← hlatest] at hself
      exact List.forall₂_reverse_iff.mp hself

variable {e : Elementary} {n : Nat} {o : Options}

namespace Session

/-- **After the block**, with either contents, the sessions are in lockstep. -/
theorem lockstep_after {ts : List Token} {s : Session} (h : s.Traced o ts) (hx : x.number = opens ts) :
    Lockstep (Simulation.exchanging x o.maxStackDepth)
      { s with opened := s.opened + (x.own.blocks + 1) }
      { s with opened := s.opened + (x.other.blocks + 1) } where
  stack := by
    refine ⟨List.forall₂_same.mpr fun v hv => ?_, h.stack.limit, h.stack.limit⟩
    cases v with
    | number n => exact .number n
    | boolean b => exact .boolean b
    | procedure p => exact .procedure ((h.stack.items _ hv : p.IsBlockOf ts).relates_self hx)
  recordings := h.recorded.related_self (Nat.le_of_eq hx.symm)
  depth := rfl
  opened := by
    intro j
    have hnext : (Simulation.exchanging x o.maxStackDepth).Paired (x.number + (x.own.blocks + 1) + j)
        (x.renumber (x.number + (x.own.blocks + 1) + j)) :=
      Simulation.exchanging_paired (.inr (by omega)) (by omega)
    rw [Exchange.renumber_after] at hnext
    rwa [h.opened, ← hx]

end Session

/-! ## Texts -/

/-- The text is what may stand between the braces of a block that has `depth` braces around it: every word means
something and none is too long, and the braces among them match and do not nest too deep. -/
structure Contents (o : Options) (depth : Nat) (text : List UInt8) (T : Phrase) : Prop where
  meaningful : ∀ w ∈ words text, Meaningful w
  tokens : tokensOf text = T.tokens
  fits : depth + (T.height + 1) ≤ o.maxNestingDepth
  admitted : ∀ w ∈ words text, w.length ≤ max o.bufferCapacity 1

/-- Words whose braces match are such contents. -/
theorem exists_contents {depth : Nat} {text : List UInt8} (hmeaningful : ∀ w ∈ words text, Meaningful w)
    (hmatched : Matched 0 (tokensOf text))
    (hfits : depth + (nesting 0 (tokensOf text) + 1) ≤ o.maxNestingDepth)
    (hadmitted : ∀ w ∈ words text, w.length ≤ max o.bufferCapacity 1) : ∃ T, Contents o depth text T := by
  obtain ⟨T, htokens, hheight⟩ := exists_phrase_of_matched hmatched
  exact ⟨T, hmeaningful, htokens.symm, hheight ▸ hfits, hadmitted⟩

/-- The words of the contents mean the tokens, under every policy. -/
theorem Contents.meaning {depth : Nat} {text : List UInt8} {T : Phrase} (h : Contents o depth text T)
    (policy : UnknownTokens) : Session.Meaning policy (words text) T.tokens := by
  rw [← h.tokens]
  refine List.forall₂_map_right_iff.mpr (List.forall₂_same.mpr fun w hw => ?_)
  obtain ⟨t, ht⟩ := (Token.ofWord_strict_iff (isWord_of_mem_words w hw)).mpr (h.meaningful w hw)
  rw [Token.ofWordLeniently_of_ok ht]
  exact Token.ofWord_of_strict ht policy

/-- A text with a block in it. -/
def withBlock (pre contents post : List UInt8) : List UInt8 :=
  pre ++ openByte :: (contents ++ closeByte :: post)

/-- The words of a block. -/
def blockWords (contents : List UInt8) : List Word :=
  [openByte] :: (words contents ++ [[closeByte]])

theorem Contents.blockWords_admitted {depth : Nat} {text : List UInt8} {T : Phrase}
    (h : Contents o depth text T) : ∀ w ∈ blockWords text, w.length ≤ max o.bufferCapacity 1 := by
  intro w hw
  rcases List.mem_cons.mp hw with rfl | hw
  · exact Nat.le_max_right _ _
  rcases List.mem_append.mp hw with hw | hw
  · exact h.admitted w hw
  · obtain rfl := List.mem_singleton.mp hw
    exact Nat.le_max_right _ _

theorem words_withBlock (pre contents post : List UInt8) :
    words (withBlock pre contents post) = words pre ++ blockWords contents ++ words post := by
  rw [withBlock, words_append_brace rfl, words_append_brace rfl]
  simp [blockWords]

/-! ## Both runs -/

/-- An outcome that follows another, with results that are a function of its results. -/
theorem Outcome.Follows.eq_mapOk {α β : Type} {A : α → β → Prop} {r : Outcome α} {r' : Outcome β} {g : α → β}
    (h : Outcome.Follows (fun _ => False) A r r') (hA : ∀ a b, A a b → b = g a) : r' = r.mapOk g := by
  cases h with
  | none => rfl
  | ok hab =>
    rw [hA _ _ hab]
    rfl
  | error f => rfl
  | excused hf => exact hf.elim

/-- A fault that stops the reading leaves no stack to change. -/
theorem Transcript.evaluate_mapOk_of_fault {t : Transcript} {f : Fault} (h : t.fault = some f) (stack : Stack)
    (g : Stack → Stack) : (t.evaluate e n o stack).mapOk g = t.evaluate e n o stack := by
  have hconclude (s : Session) : t.conclude o s = .error f := by
    unfold conclude
    rw [h]
  simp only [evaluate_eq_andThen, hconclude]
  match Session.run e n o t.words { stack } with
  | none => rfl
  | some (.error f') => rfl
  | some (.ok s) => rfl

namespace Session

variable {s : Session} {own other : List UInt8}

/-- The words of a block inside another deliver one procedure. -/
theorem run_block {T : Phrase} (h : Contents o s.depth own T) (hdepth : s.depth ≠ 0) :
    run e n o (blockWords own) s =
      some (deliver (.procedure ⟨s.opened, T.record (s.opened + 1)⟩)
        { s with opened := s.opened + (T.blocks + 1) }) := by
  have hmeaning : Meaning o.unknownTokens (blockWords own)
      (.operator .openBrace :: (T.tokens ++ [.operator .closeBrace])) :=
    .cons rfl (List.rel_append (h.meaning o.unknownTokens) (.cons rfl .nil))
  rw [run_eq_acceptAll hmeaning]
  refine (acceptAll_block T [] hdepth h.fits).trans ?_
  cases deliver _ _ <;> rfl

/-- **The block itself**, which the two programs have with different contents. -/
theorem block_lockstep {ts : List Token} (h : s.Traced o ts) (hx : x.number = opens ts) (hdepth : s.depth ≠ 0)
    (hown : Contents o s.depth own x.own) (hother : Contents o s.depth other x.other) :
    Outcome.Follows (fun _ => False) (Lockstep (Simulation.exchanging x o.maxStackDepth))
      (run e n o (blockWords own) s) (run e n o (blockWords other) s) := by
  have hopened : s.opened = x.number := h.opened.trans hx.symm
  have hblock : x.Relates ⟨s.opened, x.own.record (s.opened + 1)⟩
      ⟨s.opened, x.other.record (s.opened + 1)⟩ := by
    rw [hopened]
    refine ⟨⟨.inl (Nat.le_refl _), .inl rfl⟩, ?_⟩
    rw [Procedure.exchange, if_pos rfl, Exchange.renumber_of_le (Nat.le_refl _)]
  rw [run_block hown hdepth, run_block hother hdepth]
  exact deliver_lockstep (.procedure hblock) (lockstep_after h hx)

/-- **The words of both programs**: the same up to the block, the block, and the same after it. -/
theorem run_withBlock {pre : List UInt8} {ws : List Word} {inputs : List Float} {stack : Stack}
    (hinputs : Action.outcome (Stack.pushNumbers inputs) { limit := o.maxStackDepth } = .ok stack)
    (hx : x.number = opens (tokensOf pre)) (hinside : 1 ≤ leftOpen pre)
    (hown : Contents o (leftOpen pre) own x.own) (hother : Contents o (leftOpen pre) other x.other)
    (havoids : Session.Avoids e o (fun p => p.origin = x.number) (words pre ++ blockWords own ++ ws) { stack }) :
    Outcome.Follows (fun _ => False) (Lockstep (Simulation.exchanging x o.maxStackDepth))
      (run e n o (words pre ++ blockWords own ++ ws) { stack })
      (run e n o (words pre ++ blockWords other ++ ws) { stack }) := by
  have hnested := nested_of_inputs hinputs
  rw [run_append (words pre ++ blockWords own), run_append (words pre ++ blockWords other)]
  apply Outcome.Follows.andThen_of_ok (A := Lockstep (Simulation.exchanging x o.maxStackDepth))
  · rw [run_append (words pre), run_append (words pre)]
    apply Outcome.Follows.andThen_of_ok (.refl _ _)
    rintro s _ hs rfl
    have htraced : s.Traced o (tokensOf pre) := run_traced hnested rfl (traced_of_inputs hinputs) hs
    have hdepth : s.depth = leftOpen pre := run_depth hs
    rw [← hdepth] at hown hother hinside
    exact block_lockstep htraced hx (Nat.one_le_iff_ne_zero.mp hinside) hown hother
  · intro u u' hu huu'
    exact run_lockstep Simulation.exchanging_body (.refl _ o) ws huu' (havoids.of_run hu)

end Session

/-! ## Whole programs -/

/-- The block with this number is replayed at some moment of the evaluation. -/
def Replays (e : Elementary) (o : Options) (source : Source) (inputs : List Float) (k : Nat) : Prop :=
  ∃ ps, UnderWay e o source inputs ps ∧ ∃ p ∈ ps, p.origin = k

/-- The second program is evaluated as the first, but for the block. -/
theorem evaluate_eq_mapOk {pre own other post : List UInt8} {source changed : Source}
    (hsource : source.Delivers (withBlock pre own post)) (hchanged : changed.Delivers (withBlock pre other post))
    (hinside : 1 ≤ leftOpen pre) (hx : x.number = opens (tokensOf pre))
    (hown : Contents o (leftOpen pre) own x.own) (hother : Contents o (leftOpen pre) other x.other)
    {inputs : List Float} (hunchosen : ¬Replays e o source inputs x.number) :
    evaluate e n o changed inputs =
      (evaluate e n o source inputs).mapOk (Stack.mapProcedures (Procedure.exchange x)) := by
  rcases unread_or_read o inputs with ⟨f, hunread⟩ | ⟨hwraps, stack, hinputs⟩
  · rw [hunread.evaluate_eq _ _ _ _ rfl rfl, hunread.evaluate_eq _ _ _ _ rfl rfl]
    rfl
  · have havoids : Session.Avoids e o (fun p => p.origin = x.number)
        (Reader.ofSource o.bufferCapacity source).transcript.words { stack } :=
      Session.avoids_of_underWay (fun ps hps p hp heq => hunchosen ⟨ps, hps, p, hp, heq⟩) hinputs
    rw [transcript_ofSource hsource.most hwraps, hsource.delivered] at havoids
    rw [hsource.evaluate_eq hwraps hinputs, hchanged.evaluate_eq hwraps hinputs]
    by_cases hadmitted : ∀ w ∈ words pre, w.length ≤ max o.bufferCapacity 1
    · have hread {contents : List UInt8} {V : Phrase} (h : Contents o (leftOpen pre) contents V) :=
        Delivered.transcript_of_words_append (words_withBlock pre contents post)
          (List.forall_mem_append.mpr ⟨hadmitted, h.blockWords_admitted⟩)
      rw [hread hown] at havoids
      rw [hread hown, hread hother, Transcript.evaluate_eq_andThen, Transcript.evaluate_eq_andThen]
      have hwords := Session.run_withBlock (n := n) hinputs hx hinside hown hother havoids
      have hfollows := hwords.andThen fun s s' hs => Transcript.conclude_lockstep (.refl _ o)
        (Delivered.transcript (max o.bufferCapacity 1) ⟨post, none⟩) hs
      exact hfollows.eq_mapOk fun t t' ht => Stack.eq_mapProcedures ht fun p q hpq => hpq.2
    · -- neither is read as far as the block
      have hread (contents : List UInt8) := Delivered.transcript_of_long_front
        (words_withBlock pre contents post ▸ List.append_assoc _ _ _) hadmitted
      rw [hread, hread, Transcript.evaluate_mapOk_of_fault rfl]

/-- **A block that is not chosen leaves no trace.** Two programs differ in the contents of one block, which
stands inside another. If that block is not replayed in the evaluation of the first, then the second is
evaluated in the same way: to the same fault, or to the same stack but for the block. Wherever the block is
found there, also inside others, it has its other contents, and what is without it reads as before. -/
theorem evaluate_exchange (e : Elementary) (n : Nat) (o : Options) (pre own other post : List UInt8)
    (source changed : Source) (hsource : source.Delivers (withBlock pre own post))
    (hchanged : changed.Delivers (withBlock pre other post)) (hinside : 1 ≤ leftOpen pre)
    (x : Exchange) (hx : x.number = opens (tokensOf pre)) (hown : Contents o (leftOpen pre) own x.own)
    (hother : Contents o (leftOpen pre) other x.other) (inputs : List Float)
    (hunchosen : ¬Replays e o source inputs x.number) :
    evaluate e n o changed inputs =
        (evaluate e n o source inputs).mapOk (Stack.mapProcedures (Procedure.exchange x)) ∧
      (∀ p : Procedure, p.origin = x.number → (p.exchange x).tokens = tokensOf other) ∧
      ∀ p : Procedure, (∀ q : Procedure, q.Inside p → q.origin ≠ x.number) →
        (p.exchange x).tokens = p.tokens := by
  refine ⟨evaluate_eq_mapOk hsource hchanged hinside hx hown hother hunchosen, ?_, ?_⟩
  · intro p hp
    rw [hother.tokens]
    exact Procedure.tokens_exchange hp
  · intro p hp
    exact Procedure.Without.tokens_exchange hp

/-! ### A branch that is not taken -/

/-- Where nothing is replayed at all, no block is. -/
theorem not_replays_of_evaluate_zero {source : Source} {inputs : List Float} {r : Except Fault Stack}
    (h : evaluate e 0 o source inputs = some r) (k : Nat) : ¬Replays e o source inputs k := by
  rintro ⟨ps, hps, p, hp, -⟩
  have hlen := evaluate_eq_some_iff.mp ⟨r, h⟩ ps hps
  obtain rfl := List.length_eq_zero_iff.mp (Nat.le_zero.mp hlen)
  cases hp

/-- The bytes of `{{true` and of `if}dup false exch if{}}`, between which a block stands: it is the branch of a
conditional in a block that is copied, and the copy is not chosen. -/
def aroundBranch : List UInt8 × List UInt8 :=
  ([0x7B, 0x7B, 0x74, 0x72, 0x75, 0x65],
    [0x69, 0x66, 0x7D, 0x64, 0x75, 0x70, 0x20, 0x66, 0x61, 0x6C, 0x73, 0x65, 0x20, 0x65, 0x78, 0x63, 0x68, 0x20,
      0x69, 0x66, 0x7B, 0x7D, 0x7D])

/-- The bytes of `add`. -/
def addBranch : List UInt8 :=
  [0x61, 0x64, 0x64]

/-- The bytes of `{}true`. -/
def trueBranch : List UInt8 :=
  [0x7B, 0x7D, 0x74, 0x72, 0x75, 0x65]

/-- The tokens of `add`. -/
def addPhrase : Phrase :=
  .token (.operator .add) rfl .nil

/-- The tokens of `{}true`. -/
def truePhrase : Phrase :=
  .block .nil (.token (.boolean true) (Token.isBrace_boolean true) .nil)

theorem contents_addBranch : Contents {} (leftOpen aroundBranch.1) addBranch addPhrase where
  meaningful := by
    have hnames : Operator.Names .add addBranch := ⟨'a', ['d', 'd'], rfl, .inl rfl⟩
    exact List.forall_mem_singleton.mpr (.operator (by decide) hnames)
  tokens := rfl
  fits := by decide
  admitted := by decide

theorem contents_trueBranch : Contents {} (leftOpen aroundBranch.1) trueBranch truePhrase where
  meaningful := List.forall_mem_cons.mpr ⟨.openBrace, List.forall_mem_cons.mpr ⟨.closeBrace,
    List.forall_mem_singleton.mpr .yes⟩⟩
  tokens := rfl
  fits := by decide
  admitted := by decide

/-- The two programs leave the same stack, but for the branch and for the number of the last block. -/
theorem evaluate_exchange_branch :
    evaluate .machine 0 {} (.ofBytes (withBlock aroundBranch.1 addBranch aroundBranch.2)) [] =
        some (.ok ⟨[.procedure ⟨3, []⟩,
          .procedure ⟨1, [.boolean true, .block 2 [.operator .add], .operator .ifTrue]⟩], some 100⟩) ∧
      ¬Replays .machine {} (.ofBytes (withBlock aroundBranch.1 addBranch aroundBranch.2)) []
          2 ∧
      evaluate .machine 0 {} (.ofBytes (withBlock aroundBranch.1 trueBranch aroundBranch.2)) [] =
        some (.ok ⟨[.procedure ⟨4, []⟩,
          .procedure ⟨1, [.boolean true, .block 2 [.block 3 [], .boolean true], .operator .ifTrue]⟩],
          some 100⟩) := by
  have hsource := Source.ofBytes_delivers (withBlock aroundBranch.1 addBranch aroundBranch.2)
  have hchanged := Source.ofBytes_delivers (withBlock aroundBranch.1 trueBranch aroundBranch.2)
  have hown : evaluate .machine 0 {} (.ofBytes (withBlock aroundBranch.1 addBranch aroundBranch.2)) [] =
      some (.ok ⟨[.procedure ⟨3, []⟩,
        .procedure ⟨1, [.boolean true, .block 2 [.operator .add], .operator .ifTrue]⟩], some 100⟩) :=
    (hsource.evaluate_eq (by decide) rfl).trans (by rfl)
  have hunchosen := not_replays_of_evaluate_zero hown 2
  refine ⟨hown, hunchosen, ?_⟩
  have hsame := (evaluate_exchange .machine 0 {} _ _ _ _ _ _ hsource hchanged (by decide)
    ⟨2, addPhrase, truePhrase⟩ rfl contents_addBranch contents_trueBranch [] hunchosen).1
  rw [hsame, hown]
  rfl

end TypeFour
