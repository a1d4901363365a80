import TypeFour.Proofs.Depth
import TypeFour.Proofs.Nesting
import TypeFour.Proofs.Stages

/-!
# `TypeFour.Proofs.InStep` — the depth and the recordings go in step

A session describes one nesting twice: by a number, which counts every open brace, and by its recordings, of
which the outermost brace has none. The two never drift apart. So a closing brace always finds the recording
that it closes, and whether a token is executed or recorded can be told from the braces before it. The limit
on nesting is met where the next brace would be one too many, and nowhere else.

## Contents
- `acceptAll_fault`, `acceptAll_nested`, `acceptAll_depth` — tokens in a row.
- `Session.InStep`, `Session.Reached` — the invariant, and the sessions between two tokens.
- `InStep.close`, `depth_of_accept_close`, `InStep.plain` — what the next token does.
- `MeetsLimit`, `acceptAll_eq_limitCheck_iff`, `evaluate_eq_limitCheck_iff` — the limit on nesting.
- `reached_inStep` — all of it.
-/

namespace TypeFour

variable {e : Elementary} {n : Nat} {o : Options} {f : Fault}

namespace Session

variable {s u : Session} {ts : List Token}

/-! ## Tokens in a row -/

theorem acceptAll_cons_eq_ok {t : Token} (h : acceptAll e n o (t :: ts) s = some (.ok u)) :
    ∃ v, s.accept e n o t = some (.ok v) ∧ acceptAll e n o ts v = some (.ok u) := by
  rw [acceptAll] at h
  cases ha : s.accept e n o t with
  | none =>
    rw [ha] at h
    cases h
  | some r =>
    rw [ha] at h
    cases r with
    | error g => cases h
    | ok v => exact ⟨v, rfl, h⟩

theorem acceptAll_append (ts rest : List Token) (s : Session) :
    acceptAll e n o (ts ++ rest) s = (acceptAll e n o ts s).andThen (acceptAll e n o rest) := by
  induction ts generalizing s with
  | nil => rfl
  | cons t ts ih =>
    rw [List.cons_append, acceptAll, acceptAll]
    cases s.accept e n o t with
    | none => rfl
    | some r =>
      cases r with
      | error g => rfl
      | ok v => exact ih v

/-- The first token that fails. -/
theorem acceptAll_fault (h : acceptAll e n o ts s = some (.error f)) :
    ∃ before t after u, ts = before ++ t :: after ∧ acceptAll e n o before s = some (.ok u) ∧
      u.accept e n o t = some (.error f) := by
  induction ts generalizing s with
  | nil => cases h
  | cons t ts ih =>
    cases ha : s.accept e n o t with
    | none =>
      rw [acceptAll, ha] at h
      cases h
    | some r =>
      cases r with
      | error g =>
        rw [acceptAll, ha] at h
        cases h
        exact ⟨[], t, ts, s, rfl, rfl, ha⟩
      | ok v =>
        rw [acceptAll_cons_of_ok ha] at h
        obtain ⟨before, t', after, u, rfl, hbefore, ht'⟩ := ih h
        exact ⟨t :: before, t', after, u, rfl, (acceptAll_cons_of_ok ha before).trans hbefore, ht'⟩

theorem acceptAll_nested (hs : s.Nested o) (h : acceptAll e n o ts s = some (.ok u)) : u.Nested o := by
  induction ts generalizing s with
  | nil =>
    cases h
    exact hs
  | cons t ts ih =>
    obtain ⟨v, hv, hu⟩ := acceptAll_cons_eq_ok h
    exact ih (hs.accept hv) hu

theorem acceptAll_depth (h : acceptAll e n o ts s = some (.ok u)) :
    u.depth = ts.foldl Token.depthAfter s.depth := by
  induction ts generalizing s with
  | nil =>
    cases h
    rfl
  | cons t ts ih =>
    obtain ⟨v, hv, hu⟩ := acceptAll_cons_eq_ok h
    rw [ih hu, accept_depth hv, List.foldl_cons]

/-! ## The invariant -/

/-- The session is in step with the braces among the tokens before it. -/
structure InStep (o : Options) (ts : List Token) (s : Session) : Prop where
  /-- Outside all braces nothing is recorded. -/
  outside : s.depth = 0 → s.recordings.length = 0
  /-- Every open brace but the outermost has a recording. -/
  inside : 1 ≤ s.depth → s.recordings.length = s.depth - 1
  /-- As many braces are open as the tokens leave open, a closing one counting for nothing where none is. -/
  depth : s.depth = ts.foldl Token.depthAfter 0
  depth_le : s.depth ≤ o.maxNestingDepth

/-- Some tokens have been worked through, none of which failed, beginning with the inputs on the stack. -/
def Reached (e : Elementary) (o : Options) (inputs : List Float) (ts : List Token) (s : Session) : Prop :=
  ∃ n stack, Action.outcome (Stack.pushNumbers inputs) { limit := o.maxStackDepth } = .ok stack ∧
    acceptAll e n o ts { stack } = some (.ok s)

/-- **Between two tokens** the session is in step. -/
theorem Reached.inStep {inputs : List Float} (h : Reached e o inputs ts s) : InStep o ts s := by
  obtain ⟨n, stack, hinputs, hts⟩ := h
  have hnested := acceptAll_nested (nested_of_inputs hinputs) hts
  refine ⟨?_, fun _ => hnested.recordings, acceptAll_depth hts, hnested.depth_le⟩
  intro hzero
  rw [hnested.recordings, hzero]

/-- **A closing brace** inside another one finds the recording that it closes. -/
theorem InStep.close (h : InStep o ts s) (hdepth : 2 ≤ s.depth) :
    ∃ r rs, s.recordings = r :: rs ∧ s.accept e n o (.operator .closeBrace) =
      some (deliver (.procedure r.toProcedure) { s with recordings := rs, depth := s.depth - 1 }) := by
  obtain ⟨stack, recordings, depth, opened⟩ := s
  obtain ⟨d, rfl⟩ := Nat.exists_eq_add_of_le' hdepth
  have hlen : recordings.length = d + 1 := h.inside (Nat.le_add_left 1 (d + 1))
  obtain ⟨r, rs, rfl⟩ := List.exists_cons_of_length_eq_add_one hlen
  exact ⟨r, rs, rfl, accept_close (Nat.succ_ne_zero d)⟩

/-- **A closing brace** takes one from the depth, or is passed over where no brace is open. -/
theorem depth_of_accept_close (h : s.accept e n o (.operator .closeBrace) = some (.ok u)) :
    s.depth = 0 ∧ u = s ∨ s.depth = u.depth + 1 := by
  obtain ⟨hzero, -, rfl⟩ | ⟨hd, rfl⟩ | ⟨d, hd, ⟨-, rfl⟩ | ⟨_, _, v, -, -, rfl⟩⟩ :=
    closeBlock_ok (Option.some.inj h)
  · exact .inl ⟨hzero, rfl⟩
  all_goals exact .inr hd

/-- **A token other than a brace** is executed where at most one brace is open, and recorded where more
are. -/
theorem InStep.plain (h : InStep o ts s) {t : Token} (ht : t.isBrace = false) :
    (ts.foldl Token.depthAfter 0 ≤ 1 → s.accept e n o t =
      (perform e (replay e n) t.toInstruction s.stack).resume fun stack => some (.ok { s with stack })) ∧
    (2 ≤ ts.foldl Token.depthAfter 0 → ∃ r rs, s.recordings = r :: rs ∧
      s.accept e n o t = some (.ok { s with recordings := r.add t.toInstruction :: rs })) := by
  rw [← h.depth]
  constructor
  · intro hdepth
    have hlen : s.recordings.length = 0 := by
      by_cases hzero : s.depth = 0
      · exact h.outside hzero
      · have := h.inside (Nat.one_le_iff_ne_zero.mpr hzero)
        omega
    exact accept_execute (List.length_eq_zero_iff.mp hlen) ht
  · intro hdepth
    have hlen := h.inside (Nat.le_of_succ_le hdepth)
    have hpos : s.recordings ≠ [] := by
      intro hnil
      rw [hnil, List.length_nil] at hlen
      omega
    obtain ⟨r, rs, hrec⟩ := List.exists_cons_of_ne_nil hpos
    exact ⟨r, rs, hrec, accept_record hrec ht⟩

/-! ## The limit on nesting -/

/-- Working through the tokens comes to an opening brace with which more braces would be open than the limit
allows; the tokens before it are accepted. -/
def MeetsLimit (e : Elementary) (n : Nat) (o : Options) (ts : List Token) (s : Session) : Prop :=
  ∃ before after u, ts = before ++ .operator .openBrace :: after ∧
    acceptAll e n o before s = some (.ok u) ∧
    o.maxNestingDepth < before.foldl Token.depthAfter s.depth + 1

/-- **Tokens fail with `limitCheck`** exactly when they come to a brace that is one too many. -/
theorem acceptAll_eq_limitCheck_iff :
    acceptAll e n o ts s = some (.error .limitCheck) ↔ MeetsLimit e n o ts s := by
  constructor
  · intro h
    obtain ⟨before, t, after, u, rfl, hbefore, hu⟩ := acceptAll_fault h
    obtain ⟨rfl, hlim⟩ := accept_eq_limitCheck_iff.mp hu
    refine ⟨before, after, u, rfl, hbefore, ?_⟩
    rw [← acceptAll_depth hbefore]
    exact Nat.lt_succ_of_le hlim
  · rintro ⟨before, after, u, rfl, hbefore, hlim⟩
    rw [← acceptAll_depth hbefore] at hlim
    have hu : u.accept e n o (.operator .openBrace) = some (.error .limitCheck) :=
      accept_eq_limitCheck_iff.mpr ⟨rfl, Nat.le_of_lt_succ hlim⟩
    rw [acceptAll_append, hbefore]
    show acceptAll e n o (.operator .openBrace :: after) u = _
    rw [acceptAll, hu]

/-- Words that are all accepted all have a meaning. -/
theorem exists_meaning {ws : List Word} (h : run e n o ws s = some (.ok u)) :
    ∃ ts, Meaning o.unknownTokens ws ts := by
  induction ws generalizing s with
  | nil => exact ⟨[], .nil⟩
  | cons w ws ih =>
    obtain ⟨t, ht, ⟨-, hnone⟩ | ⟨v, -, hv⟩⟩ := run_cons_cases h (by simp)
    · cases hnone
    · obtain ⟨ts, hts⟩ := ih hv
      exact ⟨t :: ts, .cons ht hts⟩

/-- **Words fail with `limitCheck`** exactly when they begin with words whose tokens come to a brace that is
one too many. -/
theorem run_eq_limitCheck_iff {ws : List Word} :
    run e n o ws s = some (.error .limitCheck) ↔
      ∃ front ts, front <+: ws ∧ Meaning o.unknownTokens front ts ∧ MeetsLimit e n o ts s := by
  constructor
  · intro h
    obtain ⟨before, w, after, u, rfl, hbefore, hw | ⟨t, ht, hu⟩⟩ := run_fault h
    · rcases (Token.ofWord_fault hw).2 with hf | hf <;> cases hf
    · -- the words up to the brace have a meaning, and fail as their tokens do
      obtain ⟨ts, hts⟩ := exists_meaning hbefore
      have hfront : Meaning o.unknownTokens (before ++ [w]) (ts ++ [t]) :=
        List.rel_append hts (.cons ht .nil)
      refine ⟨before ++ [w], ts ++ [t], ⟨after, by simp⟩, hfront, ?_⟩
      rw [← acceptAll_eq_limitCheck_iff, acceptAll_append, ← run_eq_acceptAll hts, hbefore]
      show acceptAll e n o [t] u = _
      rw [acceptAll, hu]
  · rintro ⟨front, ts, ⟨rest, rfl⟩, hts, hlim⟩
    refine run_append_of_fault ?_ rest
    rw [run_eq_acceptAll hts]
    exact acceptAll_eq_limitCheck_iff.mpr hlim

end Session

/-- The end of the data knows no limit. -/
theorem Transcript.conclude_eq_limitCheck_iff {t : Transcript} {s : Session} :
    t.conclude o s = .error .limitCheck ↔ t.fault = some .limitCheck := by
  unfold conclude
  cases t.fault with
  | some g => simp
  | none =>
    have hfinish : s.finish o ≠ .error .limitCheck := by
      intro hs
      rcases (Session.finish_fault hs).2 with ⟨hf, -⟩ | ⟨hf, -⟩ <;> cases hf
    simp [hfinish]

/-- **An evaluation fails with `limitCheck`** for one of two reasons: the words come to a brace that is one
too many, or the words that are read are all accepted and the next one is too long. -/
theorem evaluate_eq_limitCheck_iff {source : Source} {inputs : List Float} :
    evaluate e n o source inputs = some (.error .limitCheck) ↔
      ∃ stack, Action.outcome (Stack.pushNumbers inputs) { limit := o.maxStackDepth } = .ok stack ∧
        ((∃ front ts, front <+: (Reader.ofSource o.bufferCapacity source).transcript.words ∧
            Session.Meaning o.unknownTokens front ts ∧ Session.MeetsLimit e n o ts { stack }) ∨
          (Reader.ofSource o.bufferCapacity source).transcript.fault = some .limitCheck ∧
            ∃ s, Session.run e n o (Reader.ofSource o.bufferCapacity source).transcript.words { stack } =
              some (.ok s)) := by
  unfold evaluate
  cases hp : Action.outcome (Stack.pushNumbers inputs) { limit := o.maxStackDepth } with
  | error g =>
    constructor
    · intro h
      cases h
      cases isOperand_of_inputs hp
    · rintro ⟨stack, hstack, -⟩
      cases hstack
  | ok stack =>
    simp only [Except.ok.injEq, exists_eq_left', ← Session.run_eq_limitCheck_iff]
    rw [Transcript.evaluate_eq_andThen, Outcome.andThen_eq_error]
    simp only [Option.some.injEq, Transcript.conclude_eq_limitCheck_iff, exists_and_right]
    rw [and_comm]

namespace Session

/-- **Depth and recordings.** Between two tokens, whatever they are, the session is in step with the braces
before: a closing brace finds its recording and never takes one from a depth of zero, and every other token
is executed or recorded as the braces before it say. The limit on nesting is met by the first opening brace
that would be one too many, and by nothing else; an evaluation that fails with the same fault for another
reason has read a word that is too long. -/
theorem reached_inStep (e : Elementary) (o : Options) (inputs : List Float) :
    (∀ ts s, Reached e o inputs ts s → InStep o ts s ∧ ∀ n,
      (2 ≤ s.depth → ∃ r rs, s.recordings = r :: rs ∧ s.accept e n o (.operator .closeBrace) =
        some (deliver (.procedure r.toProcedure) { s with recordings := rs, depth := s.depth - 1 })) ∧
      (∀ u, s.accept e n o (.operator .closeBrace) = some (.ok u) →
        s.depth = 0 ∧ u = s ∨ s.depth = u.depth + 1) ∧
      ∀ t, t.isBrace = false →
        (ts.foldl Token.depthAfter 0 ≤ 1 → s.accept e n o t =
          (perform e (replay e n) t.toInstruction s.stack).resume
            fun stack => some (.ok { s with stack })) ∧
        (2 ≤ ts.foldl Token.depthAfter 0 → ∃ r rs, s.recordings = r :: rs ∧
          s.accept e n o t = some (.ok { s with recordings := r.add t.toInstruction :: rs }))) ∧
    (∀ n ts stack, acceptAll e n o ts { stack } = some (.error .limitCheck) ↔
      MeetsLimit e n o ts { stack }) ∧
    (∀ n source, evaluate e n o source inputs = some (.error .limitCheck) ↔
      ∃ stack, Action.outcome (Stack.pushNumbers inputs) { limit := o.maxStackDepth } = .ok stack ∧
        ((∃ front ts, front <+: (Reader.ofSource o.bufferCapacity source).transcript.words ∧
            Meaning o.unknownTokens front ts ∧ MeetsLimit e n o ts { stack }) ∨
          (Reader.ofSource o.bufferCapacity source).transcript.fault = some .limitCheck ∧
            ∃ s, run e n o (Reader.ofSource o.bufferCapacity source).transcript.words { stack } =
              some (.ok s))) := by
  refine ⟨?_, fun _ _ _ => acceptAll_eq_limitCheck_iff, fun _ _ => evaluate_eq_limitCheck_iff⟩
  intro ts s hreached
  have hstep := hreached.inStep
  refine ⟨hstep, fun n => ⟨hstep.close, fun _ => depth_of_accept_close, ?_⟩⟩
  intro t ht
  exact hstep.plain ht

/-! ### Braces that are opened again -/

/-- The tokens of `{}}`: a body that is closed, and a brace that nothing belongs to. -/
def closedTwice : List Token :=
  [.operator .openBrace, .operator .closeBrace, .operator .closeBrace]

/-- Where one brace may be open, a second body may follow the first, but no brace inside it. -/
theorem reached_inStep_closedTwice :
    Reached .machine { maxNestingDepth := 1 } [] closedTwice ⟨⟨[], some 100⟩, [], 0, 1⟩ ∧
      InStep { maxNestingDepth := 1 } closedTwice ⟨⟨[], some 100⟩, [], 0, 1⟩ ∧
      acceptAll .machine 0 { maxNestingDepth := 1 }
          (closedTwice ++ [.operator .openBrace, .operator .openBrace]) { stack := ⟨[], some 100⟩ } =
        some (.error .limitCheck) := by
  have hreached : Reached .machine { maxNestingDepth := 1 } [] closedTwice ⟨⟨[], some 100⟩, [], 0, 1⟩ :=
    ⟨0, _, rfl, rfl⟩
  obtain ⟨hstep, hlimit, -⟩ := reached_inStep .machine { maxNestingDepth := 1 } []
  refine ⟨hreached, (hstep _ _ hreached).1, (hlimit _ _ _).mpr ?_⟩
  exact ⟨closedTwice ++ [.operator .openBrace], [], _, rfl, rfl, by decide⟩

end Session

end TypeFour
