import TypeFour.Proofs.Depth
import TypeFour.Proofs.Nesting

/-!
# `TypeFour.Proofs.Truncation` — a text that ends inside braces

Under the tolerant policy the end of the data closes every recording that is still open. That is another way
of closing blocks than the closing brace, and it comes to the same: the text is evaluated as the text with
the missing braces would be, whatever stops either of them. Under the other policy the number of missing
braces is reported.

## Contents
- `closed` — a text with the closing braces that it lacks.
- `andThen_closers`, `run_closers` — closing braces against the end of the data.
- `transcript_of_words_append`, `transcript_of_long_front` — words before the rest of a text.
- `transcript_closers` — the words of the closed text.
- `ReadThrough`, `evaluate_truncated`, `evaluate_closed` — whole programs.
- `not_evaluate_closed_largest` — a buffer without room.
-/

namespace TypeFour

variable {e : Elementary} {n : Nat} {o : Options}

/-- The text with the closing braces that it lacks. -/
def closed (text : List UInt8) : List UInt8 :=
  text ++ List.replicate (leftOpen text) closeByte

namespace Session

/-! ## Closing braces -/

/-- What becomes of data that ends inside braces does not show before the end. -/
theorem run_truncatedInput (policy : TruncatedInput) (ws : List Word) (s : Session) :
    run e n { o with truncatedInput := policy } ws s = run e n o ws s := by
  induction ws generalizing s with
  | nil => rfl
  | cons w ws ih =>
    have haccept (t : Token) :
        s.accept e n { o with truncatedInput := policy } t = s.accept e n o t := rfl
    rw [run, run]
    simp only [haccept, ih]

/-- A word that is a closing brace. -/
theorem run_close (ws : List Word) (s : Session) :
    run e n o ([closeByte] :: ws) s = Outcome.andThen (some (s.closeBlock o)) (run e n o ws) :=
  run_cons (t := .operator .closeBrace) rfl

/-- A procedure that is delivered, and then closing braces for all recordings around it. -/
theorem andThen_closers (p : Procedure) (rs : List Recording) (stack : Stack) (opened : Nat) :
    Outcome.andThen (some (deliver (.procedure p) ⟨stack, rs, rs.length + 1, opened⟩))
        (run e n o (List.replicate (rs.length + 1) [closeByte])) =
      some ((Action.outcome (closeAround p rs) stack).map fun t => ⟨t, [], 0, opened⟩) := by
  induction rs generalizing p with
  | nil =>
    -- the last brace closes no recording
    simp only [deliver, closeAround, Action.outcome]
    cases Stack.push (.procedure p) stack with
    | ok _ t =>
      show run e n o [[closeByte]] ⟨t, [], 1, opened⟩ = _
      rw [run_close]
      rfl
    | error f t => rfl
  | cons r rs ih =>
    have hclose : closeBlock o ⟨stack, r.add (Value.procedure p).toInstruction :: rs, rs.length + 2, opened⟩ =
        deliver (.procedure (r.add (Value.procedure p).toInstruction).toProcedure)
          ⟨stack, rs, rs.length + 1, opened⟩ :=
      Option.some.inj (accept_close (e := e) (n := n) (Nat.succ_ne_zero _))
    calc Outcome.andThen (some (deliver (.procedure p) ⟨stack, r :: rs, rs.length + 2, opened⟩))
          (run e n o (List.replicate (rs.length + 2) [closeByte]))
        = run e n o ([closeByte] :: List.replicate (rs.length + 1) [closeByte])
            ⟨stack, r.add (Value.procedure p).toInstruction :: rs, rs.length + 2, opened⟩ := rfl
      _ = Outcome.andThen (some (deliver (.procedure (r.add (Value.procedure p).toInstruction).toProcedure)
            ⟨stack, rs, rs.length + 1, opened⟩)) (run e n o (List.replicate (rs.length + 1) [closeByte])) := by
          rw [run_close, hclose]
      _ = _ := ih _

/-- **As many closing braces as are open** do what the tolerated end of the data does. -/
theorem run_closers {s : Session} (h : s.recordings.length = s.depth - 1) :
    run e n o (List.replicate s.depth [closeByte]) s =
      some ((s.finish { o with truncatedInput := .tolerate }).map fun t => ⟨t, [], 0, s.opened⟩) := by
  obtain ⟨stack, recordings, depth, opened⟩ := s
  match depth, recordings with
  | 0, [] => rfl
  | 1, [] => exact run_close [] _
  | d + 2, r :: rs =>
    obtain rfl : rs.length = d := Nat.succ.inj h
    have hclose : closeBlock o ⟨stack, r :: rs, rs.length + 2, opened⟩ =
        deliver (.procedure r.toProcedure) ⟨stack, rs, rs.length + 1, opened⟩ :=
      Option.some.inj (accept_close (e := e) (n := n) (Nat.succ_ne_zero _))
    show run e n o ([closeByte] :: List.replicate (rs.length + 1) [closeByte]) _ = _
    rw [run_close, hclose]
    exact andThen_closers r.toProcedure rs stack opened

end Session

/-! ## The words of the closed text -/

/-- A brace shares no word with what stands before it. -/
theorem words_append_brace {b : UInt8} (hb : isBrace b = true) (front rest : List UInt8) :
    words (front ++ b :: rest) = words front ++ [b] :: words rest := by
  have hparted : ∀ a ∈ front.getLast?, ∀ c ∈ (b :: rest).head?, sameWord a c = false := by
    intro a _ c hc
    obtain rfl : b = c := Option.some.inj hc
    simp [sameWord, endsWord, hb]
  rw [words_append hparted, words_brace hb]

theorem words_closers (k : Nat) :
    words (List.replicate k closeByte) = List.replicate k [closeByte] := by
  induction k with
  | zero => rfl
  | succ k ih => rw [List.replicate_succ, List.replicate_succ, words_brace rfl, ih]

theorem words_append_closers (text : List UInt8) (k : Nat) :
    words (text ++ List.replicate k closeByte) = words text ++ List.replicate k [closeByte] := by
  cases k with
  | zero => simp
  | succ k => rw [List.replicate_succ, words_append_brace rfl, words_closers, List.replicate_succ]

namespace Delivered

variable {capacity : Nat} {text front rest : List UInt8} {ws : List Word}

/-- Some word is too long. -/
theorem takeWhile_length_lt (h : ¬∀ w ∈ ws, w.length ≤ capacity) :
    (ws.takeWhile (·.length ≤ capacity)).length < ws.length := by
  refine lt_of_le_of_ne (List.takeWhile_prefix _).length_le fun hlen => h fun w hw => ?_
  have hall := (List.takeWhile_prefix fun w : Word => decide (w.length ≤ capacity)).eq_of_length hlen
  exact of_decide_eq_true (List.takeWhile_eq_self_iff.mp hall w hw)

/-- A word that is too long stops the reading. -/
theorem transcript_of_long {d : Delivered}
    (h : ¬∀ w ∈ words d.bytes, w.length ≤ capacity) :
    d.transcript capacity = ⟨(words d.bytes).takeWhile (·.length ≤ capacity), some .limitCheck⟩ := by
  simp only [transcript, if_pos (takeWhile_length_lt h)]

/-- Words that are admitted are read before the rest. -/
theorem transcript_of_words_append (h : words text = ws ++ words rest)
    (hadmitted : ∀ w ∈ ws, w.length ≤ capacity) : transcript capacity ⟨text, none⟩ =
      ⟨ws ++ (transcript capacity ⟨rest, none⟩).words, (transcript capacity ⟨rest, none⟩).fault⟩ := by
  have hfirst : (ws ++ words rest).takeWhile (·.length ≤ capacity) =
      ws ++ (words rest).takeWhile (·.length ≤ capacity) :=
    List.takeWhile_append_of_pos fun w hw => decide_eq_true (hadmitted w hw)
  simp only [transcript, h, hfirst, List.length_append, Nat.add_lt_add_iff_left]
  split <;> rfl

/-- A word that is too long stops the reading before all that comes after. -/
theorem transcript_of_long_front (h : words text = words front ++ ws)
    (hlong : ¬∀ w ∈ words front, w.length ≤ capacity) :
    transcript capacity ⟨text, none⟩ =
      ⟨(words front).takeWhile (·.length ≤ capacity), some .limitCheck⟩ := by
  have hlong' : ¬∀ w ∈ words text, w.length ≤ capacity := by
    intro hall
    refine hlong fun w hw => hall w ?_
    rw [h]
    exact List.mem_append_left _ hw
  rw [transcript_of_long hlong', h, List.takeWhile_append, if_neg (takeWhile_length_lt hlong).ne]

/-- Closing braces are further words, unless the reading has been stopped before them. -/
theorem transcript_closers (hc : 1 ≤ capacity) (text : List UInt8) (k : Nat) :
    transcript capacity ⟨text ++ List.replicate k closeByte, none⟩ =
      if ∀ w ∈ words text, w.length ≤ capacity then ⟨words text ++ List.replicate k [closeByte], none⟩
      else transcript capacity ⟨text, none⟩ := by
  have hwords := words_append_closers text k
  by_cases hadm : ∀ w ∈ words text, w.length ≤ capacity
  · have hadm' : ∀ w ∈ words (text ++ List.replicate k closeByte), w.length ≤ capacity := by
      intro w hw
      rw [hwords, List.mem_append] at hw
      rcases hw with hw | hw
      · exact hadm w hw
      · rw [List.eq_of_mem_replicate hw]
        exact hc
    rw [if_pos hadm, transcript_of_admitted rfl hadm', hwords]
  · rw [if_neg hadm, transcript_of_long_front hwords hadm, transcript_of_long hadm]

end Delivered

/-! ## Whole programs -/

/-- No token of the text fails: the inputs find room, no word is too long, and every one is accepted. -/
def ReadThrough (e : Elementary) (n : Nat) (o : Options) (text : List UInt8) (inputs : List Float) : Prop :=
  ∃ stack s, Action.outcome (Stack.pushNumbers inputs) { limit := o.maxStackDepth } = .ok stack ∧
    (∀ w ∈ words text, w.length ≤ max o.bufferCapacity 1) ∧
    Session.run e n o (words text) { stack } = some (.ok s)

/-- The words of a text, where the missing braces need not be there, against the words with those braces. -/
theorem evaluate_closers {inputs : List Float} {stack : Stack}
    (hp : Action.outcome (Stack.pushNumbers inputs) { limit := o.maxStackDepth } = .ok stack)
    (text : List UInt8) :
    Transcript.evaluate e n { o with truncatedInput := .tolerate } ⟨words text, none⟩ stack =
      Transcript.evaluate e n { o with truncatedInput := .fail }
        ⟨words text ++ List.replicate (leftOpen text) [closeByte], none⟩ stack := by
  simp only [Transcript.evaluate, Session.run_truncatedInput, Session.run_append]
  cases hrun : Session.run e n o (words text) { stack } with
  | none => rfl
  | some r =>
    cases r with
    | error f => rfl
    | ok s =>
      -- the missing braces are as many as the session has open
      have hnested := Session.run_nested (nested_of_inputs hp) hrun
      have hdepth : s.depth = leftOpen text := Session.run_depth hrun
      simp only [Outcome.andThen, ← hdepth, Session.run_closers hnested.recordings]
      show some (s.finish { o with truncatedInput := .tolerate }) = _
      cases s.finish { o with truncatedInput := .tolerate } <;> rfl

/-- A text that is read through with braces open ends with the fault that says how many. -/
theorem evaluate_truncated {text : List UInt8} {source : Source} (hsource : source.Delivers text)
    (hwraps : ¬Window.Wraps o.bufferCapacity) {inputs : List Float} (hpos : 0 < leftOpen text)
    (hread : ReadThrough e n o text inputs) :
    evaluate e n { o with truncatedInput := .fail } source inputs =
      some (.error (.truncated (leftOpen text))) := by
  obtain ⟨stack, s, hp, hadm, hrun⟩ := hread
  have hdepth : s.depth = leftOpen text := Session.run_depth hrun
  have hopen : s.depth ≠ 0 := hdepth ▸ Nat.ne_of_gt hpos
  rw [hsource.evaluate_eq (o := { o with truncatedInput := .fail }) hwraps hp,
    Delivered.transcript_of_admitted rfl hadm, Transcript.evaluate, Session.run_truncatedInput, hrun]
  show some (s.finish { o with truncatedInput := .fail }) = _
  rw [Session.finish, if_neg hopen, hdepth]

/-- **Braces that are missing.** Where the end of the data is tolerated inside braces, a text is evaluated
as the text with the missing braces is where it is not tolerated. Where it is not, no token of the text
fails and memory can hold the buffer, the fault is that so many braces are missing. -/
theorem evaluate_closed (e : Elementary) (n : Nat) (o : Options) (text : List UInt8)
    (source whole : Source) (hsource : source.Delivers text) (hwhole : whole.Delivers (closed text))
    (inputs : List Float) :
    evaluate e n { o with truncatedInput := .tolerate } source inputs =
        evaluate e n { o with truncatedInput := .fail } whole inputs ∧
      (Window.Fits o.bufferCapacity → 0 < leftOpen text → ReadThrough e n o text inputs →
        evaluate e n { o with truncatedInput := .fail } source inputs =
          some (.error (.truncated (leftOpen text)))) := by
  have hc : 1 ≤ max o.bufferCapacity 1 := Nat.le_max_right _ _
  refine ⟨?_, fun hbuffer => evaluate_truncated hsource hbuffer.not_wraps⟩
  rcases unread_or_read o inputs with ⟨f, hunread⟩ | ⟨hwraps, stack, hp⟩
  · rw [hunread.evaluate_eq _ _ { o with truncatedInput := .tolerate } _ rfl rfl,
      hunread.evaluate_eq _ _ { o with truncatedInput := .fail } _ rfl rfl]
  · rw [hsource.evaluate_eq (o := { o with truncatedInput := .tolerate }) hwraps hp,
      hwhole.evaluate_eq (o := { o with truncatedInput := .fail }) hwraps hp, closed]
    simp only [Delivered.transcript_closers hc]
    by_cases hadm : ∀ w ∈ words text, w.length ≤ max o.bufferCapacity 1
    · rw [if_pos hadm, Delivered.transcript_of_admitted rfl hadm]
      exact evaluate_closers hp text
    · -- a word that is too long stops both before the end of the data
      rw [if_neg hadm, Delivered.transcript_of_long hadm]
      simp only [Transcript.evaluate, Session.run_truncatedInput]

/-! ### A text that ends in the middle of a word -/

/-- The text `{ {true {fals`. -/
def endsInsideThree : List UInt8 :=
  [0x7B, 0x20, 0x7B, 0x74, 0x72, 0x75, 0x65, 0x20, 0x7B, 0x66, 0x61, 0x6C, 0x73]

/-- Three braces are missing: with them, and where they need not be there, the inner block is recorded and
the outer one pushed. Where they have to be there, that is the fault. -/
theorem evaluate_closed_endsInsideThree :
    (Source.ofBytes endsInsideThree).Delivers endsInsideThree ∧
      (Source.ofBytes (closed endsInsideThree)).Delivers (closed endsInsideThree) ∧
      Window.Fits 256 ∧ 0 < leftOpen endsInsideThree ∧ ReadThrough .machine 0 {} endsInsideThree [] ∧
      evaluate .machine 0 { truncatedInput := .tolerate } (Source.ofBytes endsInsideThree) [] =
        some (.ok ⟨[.procedure ⟨1, [.boolean true, .block 2 [.operator .noOp]]⟩], some 100⟩) ∧
      evaluate .machine 0 { truncatedInput := .fail } (Source.ofBytes endsInsideThree) [] =
        some (.error (.truncated 3)) := by
  have hsource := Source.ofBytes_delivers endsInsideThree
  have hwhole := Source.ofBytes_delivers (closed endsInsideThree)
  have hread : ReadThrough .machine 0 {} endsInsideThree [] := ⟨_, _, rfl, by decide, rfl⟩
  obtain ⟨hclosed, htruncated⟩ := evaluate_closed .machine 0 {} endsInsideThree _ _ hsource hwhole []
  refine ⟨hsource, hwhole, by decide, by decide, hread, ?_, htruncated (by decide) (by decide) hread⟩
  rw [hclosed]
  exact (hwhole.evaluate_eq (by decide) rfl).trans rfl

/-- The text `{` is admitted where the length of the buffer wraps round, and is not found to lack a brace. -/
theorem not_evaluate_closed_largest :
    ¬∀ (e : Elementary) (n : Nat) (o : Options) (text : List UInt8) (source : Source),
      source.Delivers text → ∀ inputs, 0 < leftOpen text → ReadThrough e n o text inputs →
        evaluate e n { o with truncatedInput := .fail } source inputs =
          some (.error (.truncated (leftOpen text))) := by
  intro h
  have hadmitted : ReadThrough .machine 0 largestBuffer [0x7B] [] := ⟨_, _, rfl, by decide, rfl⟩
  have hread := h .machine 0 largestBuffer _ _ (Source.ofBytes_delivers [0x7B]) [] (by decide) hadmitted
  rw [evaluate_of_wraps (by decide)] at hread
  cases hread

end TypeFour
