import TypeFour.Proofs.Moments
import TypeFour.Proofs.Reading
import TypeFour.Proofs.Steps

/-!
# `TypeFour.Proofs.Nesting` — how deep blocks nest, and how deep replays go

The limit on nesting is checked where a brace is opened. It does bound how many blocks stand inside each
other in every procedure that an evaluation comes across (`Session.Nested`). It does not bound how many
replays are under way at once: a replay can take from the stack a procedure that does not stand inside the
one being replayed, and so go on to any depth, or for ever.

## Contents
- `Procedure.height` — how many blocks stand inside each other in a procedure.
- `Session.Nested`, `Session.Nested.accept`, `run_nested` — the invariant of a session, and what keeps it.
- `UnderWay.fits`, `UnderWay.length_le` — heights along a chain of replays.
- `WithinLimit` — the end of an evaluation with no more replays under way than braces may nest.
- `withinLimit_iff` — when that is so; `not_withinLimit_threeInARow`, `evaluate_selfReplay` — when it is not.
-/

namespace TypeFour

/-! ## Heights -/

mutual

/-- How many blocks stand inside each other in an instruction. -/
def Instruction.height : Instruction → Nat
  | .block _ body => heightAll body + 1
  | _ => 0

/-- The greatest height in a list of instructions. -/
def heightAll : List Instruction → Nat
  | [] => 0
  | i :: is => max i.height (heightAll is)

end

/-- How many blocks stand inside each other in a procedure, itself not counted. -/
def Procedure.height (p : Procedure) : Nat :=
  heightAll p.body

theorem heightAll_le_iff {is : List Instruction} {k : Nat} :
    heightAll is ≤ k ↔ ∀ i ∈ is, i.height ≤ k := by
  induction is with
  | nil => simp [heightAll]
  | cons i is ih => rw [heightAll, Nat.max_le, ih, List.forall_mem_cons]

theorem height_le_heightAll {is : List Instruction} {i : Instruction} (h : i ∈ is) :
    i.height ≤ heightAll is :=
  heightAll_le_iff.mp (Nat.le_refl _) i h

/-- The procedure could be recorded at depth two of a program whose braces nest at most `limit` deep. -/
def Procedure.Fits (limit : Nat) (p : Procedure) : Prop :=
  p.height + 2 ≤ limit

/-- The inner blocks of a procedure that fits do so as well. -/
theorem Procedure.Fits.inner {limit : Nat} {p : Procedure} (h : p.Fits limit) :
    ∀ i ∈ p.body, i.Meets (Procedure.Fits limit) := by
  intro i hi
  cases i with
  | number x => trivial
  | boolean b => trivial
  | operator op => trivial
  | block origin body =>
    have hle : heightAll body + 1 ≤ p.height := by
      have := height_le_heightAll hi
      rwa [Instruction.height] at this
    show heightAll body + 2 ≤ limit
    have := h
    unfold Procedure.Fits at this
    omega

variable {e : Elementary} {n : Nat} {o : Options} {limit : Nat}

/-! ## The invariant of a session -/

/-- What has been recorded still fits where it stands: the recording that has `rs` around it belongs to a
brace at depth `rs.length + 2`. -/
def RecordedWithin (limit : Nat) : List Recording → Prop
  | [] => True
  | r :: rs => rs.length + 2 ≤ limit ∧ (∀ i ∈ r.latest, i.height + (rs.length + 2) ≤ limit) ∧
      RecordedWithin limit rs

/-- Nothing that a session holds is nested deeper than the limit allows. -/
structure Session.Nested (o : Options) (s : Session) : Prop where
  recordings : s.recordings.length = s.depth - 1
  depth_le : s.depth ≤ o.maxNestingDepth
  recorded : RecordedWithin o.maxNestingDepth s.recordings
  stack : s.stack.All (Procedure.Fits o.maxNestingDepth) o.maxStackDepth

/-- A recording that fits at its depth becomes a procedure that does. -/
theorem RecordedWithin.height_toProcedure {r : Recording} {rs : List Recording}
    (h : RecordedWithin limit (r :: rs)) : r.toProcedure.height + (rs.length + 2) ≤ limit := by
  obtain ⟨hdepth, hlatest, -⟩ := h
  have hle : r.toProcedure.height ≤ limit - (rs.length + 2) := by
    refine heightAll_le_iff.mpr fun i hi => ?_
    have := hlatest i (List.mem_reverse.mp hi)
    omega
  omega

/-- One more instruction, which fits where it is recorded. -/
theorem RecordedWithin.add {r : Recording} {rs : List Recording} {i : Instruction}
    (h : RecordedWithin limit (r :: rs)) (hi : i.height + (rs.length + 2) ≤ limit) :
    RecordedWithin limit (r.add i :: rs) := by
  obtain ⟨hdepth, hlatest, hrs⟩ := h
  refine ⟨hdepth, ?_, hrs⟩
  intro j hj
  rcases List.mem_cons.mp hj with rfl | hj
  · exact hi
  · exact hlatest j hj

namespace Session

/-- A value that fits where it is delivered. -/
theorem deliver_nested {v : Value} {s s' : Session}
    (hstack : s.stack.All (Procedure.Fits limit) o.maxStackDepth)
    (hrec : RecordedWithin limit s.recordings)
    (hv : v.Meets fun p => p.height + (s.recordings.length + 2) ≤ limit)
    (h : s.deliver v = .ok s') :
    s'.depth = s.depth ∧ s'.recordings.length = s.recordings.length ∧
      RecordedWithin limit s'.recordings ∧ s'.stack.All (Procedure.Fits limit) o.maxStackDepth := by
  obtain ⟨r, rs, hr, rfl⟩ | ⟨hr, t, hpush, rfl⟩ := deliver_ok h
  · rw [hr] at hv hrec ⊢
    -- as an instruction a procedure is one higher, and one brace nearer to the outermost
    have hinstr : v.toInstruction.height + (rs.length + 2) ≤ limit := by
      cases v with
      | procedure p =>
        have : p.height + (rs.length + 1 + 2) ≤ limit := hv
        show p.height + 1 + (rs.length + 2) ≤ limit
        omega
      | number x => simpa [Value.toInstruction, Instruction.height] using hrec.1
      | boolean b => simpa [Value.toInstruction, Instruction.height] using hrec.1
    exact ⟨rfl, rfl, hrec.add hinstr, hstack⟩
  · rw [hr] at hv
    have hfits : v.Meets (Procedure.Fits limit) := by
      cases v with
      | procedure p => exact hv
      | number x => trivial
      | boolean b => trivial
    exact ⟨rfl, rfl, hrec, hstack.push hfits hpush⟩

namespace Nested

variable {s s' : Session} (h : s.Nested o)

include h

theorem deliver {v : Value}
    (hv : v.Meets fun p => p.height + (s.recordings.length + 2) ≤ o.maxNestingDepth)
    (hr : s.deliver v = .ok s') : s'.Nested o := by
  obtain ⟨hdepth, hlen, hrec, hstack⟩ := deliver_nested h.stack h.recorded hv hr
  exact ⟨by rw [hlen, hdepth, h.recordings], hdepth ▸ h.depth_le, hrec, hstack⟩

theorem operate {op : Operator} (hr : s.operate e n op = some (.ok s')) : s'.Nested o := by
  obtain ⟨hlen, hle, hrecorded, hstack⟩ := h
  obtain ⟨r, rs, hrec, rfl⟩ | ⟨-, t, hx, rfl⟩ := operate_ok hr
  · rw [hrec] at hlen hrecorded
    refine ⟨hlen, hle, hrecorded.add ?_, hstack⟩
    simpa [Instruction.height] using hrecorded.1
  · exact ⟨hlen, hle, hrecorded, hstack.execute (fun _ => Procedure.Fits.inner) hx⟩

theorem openBlock (hr : s.openBlock o = .ok s') : s'.Nested o := by
  obtain ⟨hlen, -, hrecorded, hstack⟩ := h
  obtain ⟨hlt, rfl⟩ := openBlock_ok hr
  by_cases hd : s.depth = 0
  · -- the outermost brace records nothing
    rw [if_pos hd]
    refine ⟨?_, hlt, hrecorded, hstack⟩
    show s.recordings.length = s.depth
    omega
  · rw [if_neg hd]
    refine ⟨?_, hlt, ⟨?_, ?_, hrecorded⟩, hstack⟩
    · show s.recordings.length + 1 = s.depth
      omega
    · omega
    · intro i hi
      cases hi

theorem closeBlock (hr : s.closeBlock o = .ok s') : s'.Nested o := by
  obtain ⟨hlen, hle, hrecorded, hstack⟩ := h
  obtain ⟨-, -, rfl⟩ | ⟨hd, rfl⟩ | ⟨d, hd, ⟨hrec, rfl⟩ | ⟨r, rs, u, hrec, hdel, rfl⟩⟩ := closeBlock_ok hr
  · exact ⟨hlen, hle, hrecorded, hstack⟩
  · rw [hd] at hlen
    exact ⟨hlen, Nat.zero_le _, hrecorded, hstack⟩
  · -- every open brace but the outermost has a recording
    rw [hrec, hd] at hlen
    cases hlen
  · rw [hrec] at hlen hrecorded
    obtain ⟨-, hlen', hrec', hstack'⟩ := deliver_nested (s := { s with recordings := rs }) hstack
      hrecorded.2.2 (v := .procedure r.toProcedure) hrecorded.height_toProcedure hdel
    refine ⟨?_, ?_, hrec', hstack'⟩
    · show u.recordings.length = d
      rw [hlen']
      show rs.length = d
      rw [hd] at hlen
      exact Nat.succ.inj hlen
    · show d + 1 ≤ o.maxNestingDepth
      omega

/-- **One token** keeps the invariant. -/
theorem accept {t : Token} (hr : s.accept e n o t = some (.ok s')) : s'.Nested o := by
  cases t with
  | number x => exact h.deliver (v := .number x) trivial (Option.some.inj hr)
  | boolean b => exact h.deliver (v := .boolean b) trivial (Option.some.inj hr)
  | operator op =>
    cases op with
    | openBrace => exact h.openBlock (Option.some.inj hr)
    | closeBrace => exact h.closeBlock (Option.some.inj hr)
    | _ => exact h.operate (e := e) (n := n) hr

end Nested

/-- **All tokens** keep the invariant. -/
theorem run_nested {ws : List Word} {s s' : Session} (h : s.Nested o)
    (hr : run e n o ws s = some (.ok s')) : s'.Nested o := by
  induction ws generalizing s with
  | nil =>
    cases hr
    exact h
  | cons w ws ih =>
    obtain ⟨t, -, ⟨-, hnone⟩ | ⟨u, hu, hr⟩⟩ := run_cons_cases hr (by simp)
    · cases hnone
    · exact ih (h.accept hu) hr

end Session

/-! ## Heights along a chain of replays -/

/-- A session that begins with numbers only. -/
theorem nested_of_inputs {inputs : List Float} {stack : Stack}
    (h : Action.outcome (Stack.pushNumbers inputs) { limit := o.maxStackDepth } = .ok stack) :
    Session.Nested o { stack } := by
  obtain ⟨_, hpush⟩ := Action.outcome_eq_ok h
  exact ⟨rfl, Nat.zero_le _, trivial, .of_inputs hpush⟩

/-- **What is replayed** was recorded within the limit on nesting. -/
theorem UnderWay.fits {source : Source} {inputs : List Float} {ps : List Procedure}
    (h : UnderWay e o source inputs ps) : ∀ p ∈ ps, p.Fits o.maxNestingDepth := by
  cases h with
  | nil => simp
  | cons hstack hchosen hps =>
    obtain ⟨before, w, after, u, n, op, -, hbefore, -, -, choice, hb, hchoice⟩ := hchosen
    have hu := Session.run_nested (nested_of_inputs hstack) hbefore
    obtain ⟨hp, ht⟩ := hu.stack.choice hb hchoice
    exact List.forall_mem_cons.mpr ⟨hp _ rfl, hps.all (fun _ => Procedure.Fits.inner) (hp _ rfl).inner ht⟩

/-- The replays go inward: each procedure is nested less deep than the one that replays it. -/
abbrev Inward (ps : List Procedure) : Prop :=
  ps.IsChain fun p q => q.height < p.height

theorem Inward.length_le {p : Procedure} {ps : List Procedure} (h : Inward (p :: ps)) :
    (p :: ps).length ≤ p.height + 1 := by
  -- along the chain heights fall by one at least, down to zero
  induction ps generalizing p with
  | nil => simp
  | cons q ps ih =>
    obtain ⟨hlt, hchain⟩ := List.isChain_cons_cons.mp h
    have := ih hchain
    rw [List.length_cons]
    omega

/-- **Replays that go inward** are fewer than the braces that may nest. -/
theorem UnderWay.length_le {source : Source} {inputs : List Float} {ps : List Procedure}
    (h : UnderWay e o source inputs ps) (hin : Inward ps) : ps.length ≤ o.maxNestingDepth - 1 := by
  cases ps with
  | nil => exact Nat.zero_le _
  | cons p ps =>
    have hfits : p.height + 2 ≤ o.maxNestingDepth := h.fits p List.mem_cons_self
    have hlen := hin.length_le
    omega

/-! ## The limit on nesting as a bound on replays -/

/-- The evaluation ends, and never are more replays under way than braces may nest. -/
def WithinLimit (e : Elementary) (o : Options) (source : Source) (inputs : List Float) : Prop :=
  (∃ n r, evaluate e n o source inputs = some r) ∧
    ∀ ps, UnderWay e o source inputs ps → ps.length ≤ o.maxNestingDepth

/-- **What the limit bounds.** An evaluation keeps within the limit exactly when it has a result with no
more replays under way than that. The limit bounds the height of every procedure that is replayed; so it
does bound the replays as long as they all go inward, and then one fewer is enough. -/
theorem withinLimit_iff (e : Elementary) (o : Options) (source : Source) (inputs : List Float) :
    (WithinLimit e o source inputs ↔ ∃ r, evaluate e o.maxNestingDepth o source inputs = some r) ∧
      (∀ ps, UnderWay e o source inputs ps → ∀ p ∈ ps, p.height + 2 ≤ o.maxNestingDepth) ∧
      ((∀ ps, UnderWay e o source inputs ps → Inward ps) →
        ∃ r, evaluate e (o.maxNestingDepth - 1) o source inputs = some r) := by
  refine ⟨⟨fun h => evaluate_eq_some_iff.mpr h.2, fun h => ?_⟩, fun ps hps => hps.fits, fun hin => ?_⟩
  · exact ⟨⟨_, h⟩, evaluate_eq_some_iff.mp h⟩
  · exact evaluate_eq_some_iff.mpr fun ps hps => hps.length_le (hin ps hps)

/-! ### Replays that do not go inward -/

/-- The bytes of `true exch if`, which replays the procedure on top of the stack. -/
def replayTop : List UInt8 :=
  [0x74, 0x72, 0x75, 0x65, 0x20, 0x65, 0x78, 0x63, 0x68, 0x20, 0x69, 0x66]

/-- A program with three blocks at depth two, none inside another. The last replays the one before it, and
that one the first. -/
def threeInARow : List UInt8 :=
  [0x7B, 0x7B, 0x7D, 0x7B] ++ replayTop ++ [0x7D, 0x7B] ++ replayTop ++ [0x7D] ++ replayTop ++ [0x7D]

/-- Where braces may nest two deep, three replays can be under way. -/
theorem not_withinLimit_threeInARow :
    evaluate .machine 3 { maxNestingDepth := 2 } (.ofBytes threeInARow) [] =
        some (.ok ⟨[], some 100⟩) ∧
      ¬ WithinLimit .machine { maxNestingDepth := 2 } (.ofBytes threeInARow) [] := by
  have hthree : evaluate .machine 3 { maxNestingDepth := 2 } (.ofBytes threeInARow) [] =
      some (.ok ⟨[], some 100⟩) := (evaluate_of_inputs (by simp [Source.ofBytes]) (by decide) rfl).trans (by rfl)
  have htwo : evaluate .machine 2 { maxNestingDepth := 2 } (.ofBytes threeInARow) [] = none :=
    (evaluate_of_inputs (by simp [Source.ofBytes]) (by decide) rfl).trans (by rfl)
  refine ⟨hthree, fun h => ?_⟩
  obtain ⟨ps, hps, hlen⟩ := evaluate_eq_none_iff.mp htwo
  exact Nat.not_le.mpr hlen (h.2 ps hps)

/-- A block that replays a copy of itself: `{dup true exch if}`, and a program that replays it. -/
def selfReplay : List UInt8 :=
  [0x7B, 0x7B, 0x64, 0x75, 0x70, 0x20] ++ replayTop ++ [0x7D, 0x64, 0x75, 0x70, 0x20] ++ replayTop ++
    [0x7D]

/-- The procedure that replays a copy of itself. -/
def selfReplaying : Procedure :=
  ⟨1, [.operator .dup, .boolean true, .operator .exch, .operator .ifTrue]⟩

/-- Replaying it again comes back to the same stack. -/
theorem selfReplaying_chosen (e : Elementary) :
    Chosen e selfReplaying.body ⟨[.procedure selfReplaying], some 100⟩ selfReplaying
      ⟨[.procedure selfReplaying], some 100⟩ :=
  ⟨[.operator .dup, .boolean true, .operator .exch], .ifTrue, [],
    ⟨[.procedure selfReplaying, .boolean true, .procedure selfReplaying], some 100⟩, 1, rfl, rfl, _, rfl,
    rfl⟩

theorem selfReplaying_underWayIn (e : Elementary) (n : Nat) :
    UnderWayIn e selfReplaying.body ⟨[.procedure selfReplaying], some 100⟩
      (List.replicate n selfReplaying) := by
  induction n with
  | zero => exact .nil
  | succ n ih => exact .cons (selfReplaying_chosen e) ih

/-- **A program that never ends**: whatever the bound, it comes to have more replays under way. -/
theorem evaluate_selfReplay (e : Elementary) (n : Nat) :
    evaluate e n {} (.ofBytes selfReplay) [] = none := by
  have hchosen : Session.Chosen e {} (words selfReplay) { stack := ⟨[], some 100⟩ } selfReplaying
      ⟨[.procedure selfReplaying], some 100⟩ :=
    ⟨(words selfReplay).take 10, [0x69, 0x66], [[0x7D]],
      ⟨⟨[.procedure selfReplaying, .boolean true, .procedure selfReplaying], some 100⟩, [], 1, 2⟩, 1,
      .ifTrue, rfl, rfl, rfl, rfl, _, rfl, rfl⟩
  have hnone : replay e n selfReplaying.body ⟨[.procedure selfReplaying], some 100⟩ = none :=
    replay_eq_none_iff.mpr ⟨_, selfReplaying_underWayIn e n, List.length_replicate⟩
  rw [evaluate_of_inputs (by simp [Source.ofBytes]) (by decide) rfl]
  exact Option.map_eq_none_iff.mpr (Session.run_eq_none_iff.mpr ⟨_, _, hchosen, hnone⟩)

end TypeFour
