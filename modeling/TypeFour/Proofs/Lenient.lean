import TypeFour.Proofs.Nesting
import TypeFour.Proofs.NoOps

/-!
# `TypeFour.Proofs.Lenient` — what is passed over might as well be blank

Under the lenient policy three things in a text are passed over: a word that begins as a number does and is
none, a word that names nothing, and a closing brace where none is open. The lenient evaluation comes to what
the strict one comes to when there are spaces in their place, which has nothing to object to. What the
lenient one leaves may still have recorded `noOp` in its procedures; without them it is the same.

Shape. On the side of the text, spaces in place of issues leave the other words, in order
(`words_blankIssues`). On the side of the session, a step for an issue changes nothing that pruning keeps,
and every other word has the same meaning under both policies (`run_dropIssues`).

## Contents
- `isIssue`, `dropIssues`, `blanked` — the issues, among words and in a text.
- `words_blankIssues` — the words of the other text.
- `IsWord.of_isIssue`, `IsWord.of_not_isIssue` — what words mean under either policy.
- `Session.run_dropIssues` — the session; `evaluate_blanked` — whole programs.
-/

namespace TypeFour

/-! ## Issues -/

/-- A word that begins as a number does, and is none. -/
def isMalformedNumber (w : Word) : Bool :=
  w.head?.any (fun b => !isBlank b && b < 0x41) && (numberOf? w).isNone

/-- A word that begins as a name does, and is neither a boolean nor the name of an operator. -/
def isUnknownName (w : Word) : Bool :=
  w.head?.any (0x41 ≤ ·) && (booleanOf? w).isNone && Operator.ofWord w == .noOp

/-- What the lenient policy passes over, when `d` braces are open before it. -/
def isIssue (d : Nat) (w : Word) : Bool :=
  isMalformedNumber w || isUnknownName w || d == 0 && w == [closeByte]

/-- The words that are no issues, when `d` braces are open before them. -/
def dropIssues (d : Nat) : List Word → List Word
  | [] => []
  | w :: ws =>
    if isIssue d w then dropIssues (w.foldl depthAfterByte d) ws
    else w :: dropIssues (w.foldl depthAfterByte d) ws

/-- Words and blanks put together, with spaces in place of the bytes of issues, when `d` braces are open
before them. -/
def blankIssues (d : Nat) : List Word → List UInt8
  | [] => []
  | w :: ws =>
    (if isIssue d w then List.replicate w.length 0x20 else w) ++ blankIssues (w.foldl depthAfterByte d) ws

/-- The text with a space in place of every byte of an issue. -/
def blanked (text : List UInt8) : List UInt8 :=
  blankIssues 0 (text.splitBy sameWord)

theorem dropIssues_sublist (d : Nat) (ws : List Word) : (dropIssues d ws).Sublist ws := by
  induction ws generalizing d with
  | nil => exact .slnil
  | cons w ws ih =>
    rw [dropIssues]
    split
    · exact (ih _).cons w
    · exact (ih _).cons_cons w

theorem isIssue_blank {b : UInt8} (hb : isBlank b = true) (d : Nat) : isIssue d [b] = false := by
  simp only [isBlank, Bool.or_eq_true, decide_eq_true_eq] at hb
  rcases hb with ((((rfl | rfl) | rfl) | rfl) | rfl) | rfl <;>
    simp [isIssue, isMalformedNumber, isUnknownName, isBlank, closeByte]

theorem isIssue_open (d : Nat) : isIssue d [openByte] = false := by
  cases d <;> rfl

theorem isIssue_close (d : Nat) : isIssue d [closeByte] = (d == 0) := by
  cases d <;> rfl

theorem isIssue_run {w : Word} (hw : ∀ b ∈ w, endsWord b = false) (d : Nat) :
    isIssue d w = (isMalformedNumber w || isUnknownName w) := by
  have hclose : (w == [closeByte]) = false := by
    refine beq_eq_false_iff_ne.mpr fun h => ?_
    have hends : endsWord closeByte = false := hw _ (h ▸ List.mem_cons_self)
    cases hends
  rw [isIssue, hclose, Bool.and_false, Bool.or_false]

/-! ## The words of the other text -/

theorem words_spaces (k : Nat) (rest : List UInt8) : words (List.replicate k 0x20 ++ rest) = words rest := by
  induction k with
  | zero => rfl
  | succ k ih => rw [List.replicate_succ, List.cons_append, words_blank rfl, ih]

/-- What ends words still does when spaces have been put in. -/
theorem endsWord_of_mem_head?_blankIssues {text : List UInt8} (h : ∀ b ∈ text.head?, endsWord b = true)
    (d : Nat) : ∀ b ∈ (blankIssues d (text.splitBy sameWord)).head?, endsWord b = true := by
  cases text with
  | nil => exact fun b hb => nomatch hb
  | cons a rest =>
    have ha : endsWord a = true := h a rfl
    rw [splitBy_cons ha, blankIssues]
    split
    · rintro b ⟨⟩
      rfl
    · rintro b ⟨⟩
      exact ha

/-- **The words that are left** when spaces take the place of issues are the others. -/
theorem words_blankIssues (text : List UInt8) (d : Nat) :
    words (blankIssues d (text.splitBy sameWord)) = dropIssues d (words text) := by
  induction text using text_induction generalizing d with
  | nil => rfl
  | blank b rest hb ih =>
    have hdepth : [b].foldl depthAfterByte d = d :=
      depthAfterByte_of_not_isBrace (not_isBrace_of_isBlank hb) d
    rw [splitBy_cons (by simp [endsWord, hb]), words_blank hb, blankIssues, hdepth, isIssue_blank hb]
    exact (words_blank hb _).trans (ih d)
  | brace b rest hb ih =>
    rw [splitBy_cons (by simp [endsWord, hb]), words_brace hb, blankIssues, dropIssues]
    split
    · exact (words_spaces 1 _).trans (ih _)
    · exact (words_brace hb _).trans (congrArg _ (ih _))
  | run run rest hne hrun hrest ih =>
    rw [splitBy_run hne hrun hrest, words_run hne hrun hrest, blankIssues, dropIssues]
    split
    · exact (words_spaces _ _).trans (ih _)
    · exact (words_run hne hrun (endsWord_of_mem_head?_blankIssues hrest _)).trans (congrArg _ (ih _))

/-- What `words` finds: a brace, or a run of bytes that end no word. -/
def IsWord (w : Word) : Prop :=
  (∃ b, isBrace b = true ∧ w = [b]) ∨ w ≠ [] ∧ ∀ b ∈ w, endsWord b = false

theorem isWord_of_mem_words {text : List UInt8} : ∀ w ∈ words text, IsWord w := by
  induction text using text_induction with
  | nil => exact fun w hw => nomatch hw
  | blank b rest hb ih =>
    rw [words_blank hb]
    exact ih
  | brace b rest hb ih =>
    rw [words_brace hb]
    exact List.forall_mem_cons.mpr ⟨.inl ⟨b, hb, rfl⟩, ih⟩
  | run run rest hne hrun hrest ih =>
    rw [words_run hne hrun hrest]
    exact List.forall_mem_cons.mpr ⟨.inr ⟨hne, hrun⟩, ih⟩

theorem IsWord.brace_or_run {w : Word} (hw : IsWord w) :
    w = [openByte] ∨ w = [closeByte] ∨ w ≠ [] ∧ ∀ b ∈ w, endsWord b = false := by
  obtain ⟨b, hb, rfl⟩ | hrun := hw
  · simp only [isBrace, Bool.or_eq_true, decide_eq_true_eq] at hb
    rcases hb with rfl | rfl
    · exact .inl rfl
    · exact .inr (.inl rfl)
  · exact .inr (.inr hrun)

/-! ## The meaning of words -/

namespace Token

theorem ofName_of_ne {w : Word} (h : Operator.ofWord w ≠ .noOp) (policy : UnknownTokens) :
    ofName policy w = .ok (.operator (Operator.ofWord w)) := by
  unfold ofName
  split
  · next hno => exact absurd hno h
  · rfl

theorem ofName_of_eq {w : Word} (h : Operator.ofWord w = .noOp) :
    ofName .lenient w = .ok (.operator .noOp) := by
  unfold ofName
  rw [h]

/-- A run is an issue, which the lenient policy takes for `noOp`, or it has a meaning that no policy
changes. -/
theorem ofWord_run {w : Word} (hne : w ≠ []) (hw : ∀ b ∈ w, endsWord b = false) :
    ((isMalformedNumber w || isUnknownName w) = true ∧ ofWord .lenient w = .ok (.operator .noOp)) ∨
      ((isMalformedNumber w || isUnknownName w) = false ∧
        ∃ t, t ≠ .operator .noOp ∧ ∀ policy, ofWord policy w = .ok t) := by
  obtain ⟨b, rest, rfl⟩ := List.exists_cons_of_ne_nil hne
  obtain ⟨hblank, hbrace⟩ := Bool.or_eq_false_iff.mp (hw b List.mem_cons_self)
  by_cases hnum : b < 0x41
  · have hmalformed : isMalformedNumber (b :: rest) = (numberOf? (b :: rest)).isNone := by
      simp [isMalformedNumber, hblank, hnum]
    have hunknown : isUnknownName (b :: rest) = false := by
      simp [isUnknownName, UInt8.not_le.mpr hnum]
    rw [hmalformed, hunknown, Bool.or_false]
    simp only [ofWord_numeral hnum]
    unfold ofNumeral
    cases numberOf? (b :: rest) with
    | none => exact .inl ⟨rfl, rfl⟩
    | some x => exact .inr ⟨rfl, .number x, by simp, fun _ => rfl⟩
  · have hmalformed : isMalformedNumber (b :: rest) = false := by
      simp [isMalformedNumber, hnum]
    have hunknown : isUnknownName (b :: rest) =
        ((booleanOf? (b :: rest)).isNone && Operator.ofWord (b :: rest) == .noOp) := by
      simp [isUnknownName, UInt8.not_lt.mp hnum]
    rw [hmalformed, hunknown, Bool.false_or]
    simp only [ofWord_name hbrace hnum]
    cases booleanOf? (b :: rest) with
    | some truth => exact .inr ⟨rfl, .boolean truth, by simp, fun _ => rfl⟩
    | none =>
      by_cases hop : Operator.ofWord (b :: rest) = .noOp
      · exact .inl ⟨by simp [hop], ofName_of_eq hop⟩
      · exact .inr ⟨by simp [hop], _, by simp [hop], ofName_of_ne hop⟩

end Token

namespace IsWord

variable {w : Word} {d : Nat}

/-- **An issue** stands for `noOp`, or closes what is not open. -/
theorem of_isIssue (hw : IsWord w) (h : isIssue d w = true) :
    w.foldl depthAfterByte d = d ∧
      (Token.ofWord .lenient w = .ok (.operator .noOp) ∨ w = [closeByte] ∧ d = 0) := by
  obtain rfl | rfl | ⟨hne, hrun⟩ := hw.brace_or_run
  · rw [isIssue_open] at h
    cases h
  · rw [isIssue_close] at h
    obtain rfl := eq_of_beq h
    exact ⟨rfl, .inr ⟨rfl, rfl⟩⟩
  · rw [isIssue_run hrun] at h
    obtain ⟨-, hmeaning⟩ | ⟨hno, -⟩ := Token.ofWord_run hne hrun
    · exact ⟨foldl_depthAfterByte_run hrun d, .inl hmeaning⟩
    · rw [h] at hno
      cases hno

/-- **Any other word** has one meaning under both policies, which is not `noOp` and closes only what is
open. -/
theorem of_not_isIssue (hw : IsWord w) (h : isIssue d w = false) :
    ∃ t, (∀ policy, Token.ofWord policy w = .ok t) ∧ t ≠ .operator .noOp ∧
      (t = .operator .closeBrace → d ≠ 0) ∧ t.depthAfter d = w.foldl depthAfterByte d := by
  obtain rfl | rfl | ⟨hne, hrun⟩ := hw.brace_or_run
  · exact ⟨.operator .openBrace, fun _ => rfl, by simp, by simp, rfl⟩
  · refine ⟨.operator .closeBrace, fun _ => rfl, by simp, ?_, rfl⟩
    rintro - rfl
    cases h
  · rw [isIssue_run hrun] at h
    obtain ⟨hyes, -⟩ | ⟨-, t, hno, hmeaning⟩ := Token.ofWord_run hne hrun
    · rw [h] at hyes
      cases hyes
    · have hplain := Token.isBrace_of_run hrun (hmeaning .strict)
      refine ⟨t, hmeaning, hno, ?_, ?_⟩
      · rintro rfl
        cases hplain
      · rw [Token.depthAfter_plain hplain, foldl_depthAfterByte_run hrun]

end IsWord

/-! ## The session -/

namespace Session

variable {e : Elementary} {n : Nat} {o : Options} {w : Word} {s : Session}

/-- **An issue** is passed over, and changes nothing that pruning keeps. -/
theorem run_issue (hw : IsWord w) (h : isIssue s.depth w = true) (ws : List Word) :
    ∃ u, run e n { o with unknownTokens := .lenient } (w :: ws) s =
        run e n { o with unknownTokens := .lenient } ws u ∧ u.prune = s.prune ∧ u.depth = s.depth := by
  obtain ⟨-, hmeaning | ⟨rfl, hzero⟩⟩ := hw.of_isIssue h
  · obtain ⟨u, hu, hprune, hdepth⟩ := s.accept_noOp
    exact ⟨u, run_cons_of_ok hmeaning hu, hprune, hdepth⟩
  · refine ⟨s, run_cons_of_ok (t := .operator .closeBrace) rfl ?_, rfl, rfl⟩
    simp only [accept, closeBlock, hzero]

/-- **A session that never meets the issues**, pruned and under the strict policy, comes to what the session
that passes over them comes to. -/
theorem run_dropIssues {ws : List Word} (hws : ∀ w ∈ ws, IsWord w) (s : Session) :
    run e n { o with unknownTokens := .strict } (dropIssues s.depth ws) s.prune =
      (run e n { o with unknownTokens := .lenient } ws s).mapOk prune := by
  induction ws generalizing s with
  | nil => rfl
  | cons w ws ih =>
    obtain ⟨hw, hws⟩ := List.forall_mem_cons.mp hws
    cases h : isIssue s.depth w with
    | true =>
      obtain ⟨u, hrun, hprune, hdepth⟩ := run_issue hw h ws
      rw [dropIssues, if_pos h, (hw.of_isIssue h).1, hrun, ← hprune, ← hdepth]
      exact ih hws u
    | false =>
      obtain ⟨t, hmeaning, hno, hclose, hafter⟩ := hw.of_not_isIssue h
      rw [dropIssues, if_neg (by simp [h]), run_cons (hmeaning _), run_cons (hmeaning _),
        accept_prune (o := { o with unknownTokens := .lenient }) .strict hno hclose]
      cases ha : s.accept e n { o with unknownTokens := .lenient } t with
      | none => rfl
      | some r =>
        cases r with
        | error f => rfl
        | ok u =>
          have hdepth : u.depth = w.foldl depthAfterByte s.depth := (accept_depth ha).trans hafter
          rw [← hdepth]
          exact ih hws u

end Session

/-! ## Whole programs -/

/-- A stack of inputs has no procedures on it. -/
theorem Stack.prune_of_inputs {limit : Option Nat} {inputs : List Float} {stack : Stack}
    (h : Action.outcome (Stack.pushNumbers inputs) { limit } = .ok stack) : stack.prune = stack := by
  obtain ⟨_, hpush⟩ := Action.outcome_eq_ok h
  exact Stack.mapProcedures_of_all (.of_inputs hpush)

/-- What the session comes to is finished in the same way. -/
theorem Transcript.evaluate_dropIssues {e : Elementary} {n : Nat} {o : Options} {ws : List Word}
    (hws : ∀ w ∈ ws, IsWord w) {stack : Stack} (hstack : stack.prune = stack) :
    Transcript.evaluate e n { o with unknownTokens := .strict } ⟨dropIssues 0 ws, none⟩ stack =
      (Transcript.evaluate e n { o with unknownTokens := .lenient } ⟨ws, none⟩ stack).mapOk
        Stack.prune := by
  have hstart : ({ stack } : Session).prune = { stack } := by
    simp only [Session.prune, hstack, List.map_nil]
  have hrun := Session.run_dropIssues (e := e) (n := n) (o := o) hws { stack }
  rw [hstart] at hrun
  rw [Transcript.evaluate, Transcript.evaluate, hrun]
  cases Session.run e n { o with unknownTokens := .lenient } ws { stack } with
  | none => rfl
  | some r =>
    cases r with
    | error f => rfl
    | ok s => exact congrArg some (s.finish_prune (o := o))

/-- **Issues have no effect under the lenient policy.** A text whose words are not too long comes to what
it comes to under the strict policy with a space in place of every byte of an issue: both end or neither
does, with the same fault, or with the same stack once `noOp` is left out of the procedures on it. On the
strict side there is none to leave out. -/
theorem evaluate_blanked (e : Elementary) (n : Nat) (o : Options) (text : List UInt8)
    (source spaced : Source) (hsource : source.Delivers text) (hspaced : spaced.Delivers (blanked text))
    (hwords : ∀ w ∈ words text, w.length ≤ max o.bufferCapacity 1) (inputs : List Float) :
    evaluate e n { o with unknownTokens := .strict } spaced inputs =
        (evaluate e n { o with unknownTokens := .lenient } source inputs).mapOk Stack.prune ∧
      (evaluate e n { o with unknownTokens := .strict } spaced inputs).mapOk Stack.prune =
        evaluate e n { o with unknownTokens := .strict } spaced inputs := by
  have heq : evaluate e n { o with unknownTokens := .strict } spaced inputs =
      (evaluate e n { o with unknownTokens := .lenient } source inputs).mapOk Stack.prune := by
    rcases unread_or_read o inputs with ⟨f, hunread⟩ | ⟨hwraps, stack, hp⟩
    · rw [hunread.evaluate_eq _ _ { o with unknownTokens := .strict } _ rfl rfl,
        hunread.evaluate_eq _ _ { o with unknownTokens := .lenient } _ rfl rfl]
      rfl
    · have hleft : words (blanked text) = dropIssues 0 (words text) := words_blankIssues text 0
      have hadmitted : ∀ w ∈ words (blanked text), w.length ≤ max o.bufferCapacity 1 := by
        rw [hleft]
        exact fun w hw => hwords w ((dropIssues_sublist 0 _).subset hw)
      rw [hspaced.evaluate_eq (o := { o with unknownTokens := .strict }) hwraps hp,
        hsource.evaluate_eq (o := { o with unknownTokens := .lenient }) hwraps hp,
        Delivered.transcript_of_admitted rfl hadmitted, Delivered.transcript_of_admitted rfl hwords, hleft]
      exact Transcript.evaluate_dropIssues isWord_of_mem_words (Stack.prune_of_inputs hp)
  refine ⟨heq, ?_⟩
  rw [heq, Outcome.prune_prune]

/-! ### Issues at every place -/

/-- The text `}{true{zz 1x true}if{nop}}`. -/
def withIssues : List UInt8 :=
  [0x7D, 0x7B, 0x74, 0x72, 0x75, 0x65, 0x7B, 0x7A, 0x7A, 0x20, 0x31, 0x78, 0x20, 0x74, 0x72, 0x75, 0x65,
    0x7D, 0x69, 0x66, 0x7B, 0x6E, 0x6F, 0x70, 0x7D, 0x7D]

/-- The text ` {true{      true}if{   }}`. -/
example : blanked withIssues =
    [0x20, 0x7B, 0x74, 0x72, 0x75, 0x65, 0x7B, 0x20, 0x20, 0x20, 0x20, 0x20, 0x20, 0x74, 0x72, 0x75, 0x65,
      0x7D, 0x69, 0x66, 0x7B, 0x20, 0x20, 0x20, 0x7D, 0x7D] := rfl

/-- A stray brace, a block with issues that is replayed, and one that is left on the stack. -/
theorem evaluate_blanked_withIssues :
    (Source.ofBytes withIssues).Delivers withIssues ∧
      (Source.ofBytes (blanked withIssues)).Delivers (blanked withIssues) ∧
      (∀ w ∈ words withIssues, w.length ≤ 4) ∧
      evaluate .machine 1 { bufferCapacity := 4, unknownTokens := .lenient } (.ofBytes withIssues) [] =
        some (.ok ⟨[.procedure ⟨2, [.operator .noOp]⟩, .boolean true], some 100⟩) ∧
      evaluate .machine 1 { bufferCapacity := 4, unknownTokens := .strict }
          (.ofBytes (blanked withIssues)) [] =
        some (.ok ⟨[.procedure ⟨2, []⟩, .boolean true], some 100⟩) := by
  have hsource := Source.ofBytes_delivers withIssues
  have hspaced := Source.ofBytes_delivers (blanked withIssues)
  have hwords : ∀ w ∈ words withIssues, w.length ≤ 4 := by decide
  have hlenient : evaluate .machine 1 { bufferCapacity := 4, unknownTokens := .lenient }
      (.ofBytes withIssues) [] =
        some (.ok ⟨[.procedure ⟨2, [.operator .noOp]⟩, .boolean true], some 100⟩) :=
    (hsource.evaluate_eq (by decide) rfl).trans rfl
  refine ⟨hsource, hspaced, hwords, hlenient, ?_⟩
  have hstrict := (evaluate_blanked .machine 1 { bufferCapacity := 4 } withIssues _ _ hsource hspaced
    hwords []).1
  rw [hstrict, hlenient]
  rfl

end TypeFour
