import Mathlib.Tactic.Abel
import TypeFour.Proofs.Blocks
import TypeFour.Proofs.Slots

/-!
# `TypeFour.Proofs.Linear` — programs that copy nothing

Without `dup`, `copy` and `index` every instruction that is recorded is carried out at most once. A token that is
recorded makes one slot, at a place where none was before, and nothing else makes any; what is carried out in
replays, what is on the stack and what is being recorded never have a place in common. So there are no more steps
than tokens and inputs: a token is one step as it is read, or it makes a slot that is one step in some replay.

And such programs end, whatever they do with their procedures, as no more replays can be under way at once than
there are slots.

## Contents
- `Step`, `steps` — the steps of an evaluation.
- `Session.Linear` — the invariant of a session: no place is used twice.
- `Session.Linear.accept`, `Session.Linear.steps_le` — one token, accepted or not.
- `Session.Linear.run_paid`, `runSteps_le`, `run_ne_none` — all words.
- `evaluate_linear` — evaluations end, in few steps.
-/

namespace TypeFour

variable {e : Elementary} {n : Nat} {o : Options}

/-- The token is an operator that copies values of the stack. -/
def Token.isCopying : Token → Bool
  | .operator op => op.isCopying
  | _ => false

/-! ## Steps -/

/-- A step of an evaluation: an input is pushed, or a token is carried out as it is read; or the instruction of
some slot is carried out in a replay. -/
inductive Step where
  | direct
  | replayed (x : Slot)

/-- The slot whose instruction is carried out. -/
def Step.slot? : Step → Option Slot
  | direct => none
  | replayed x => some x

/-- The slots whose instructions are carried out in some steps. -/
def slotsOf (ss : List Step) : Multiset Slot :=
  ss.filterMap Step.slot?

/-- The steps at one token: none when it is recorded, or is a brace, save that a closing brace may push the
procedure that has been recorded. -/
def Session.steps (e : Elementary) (n : Nat) (t : Token) (s : Session) : List Step :=
  match s.recordings, t with
  | [], .operator .openBrace => []
  | [], .operator .closeBrace => []
  | [], .operator op => .direct :: (replayedBy e (replayed e n) op s.stack).map .replayed
  | [], _ => [.direct]
  | [_], .operator .closeBrace => [.direct]
  | _, _ => []

/-- The steps at words, up to the first that fails or has no result. The sessions in between are those of `run`. -/
def Session.runSteps (e : Elementary) (n : Nat) (o : Options) : List Word → Session → List Step
  | [], _ => []
  | w :: ws, s =>
    match Token.ofWord o.unknownTokens w with
    | .error _ => []
    | .ok t =>
      s.steps e n t ++
        match s.accept e n o t with
        | some (.ok u) => runSteps e n o ws u
        | _ => []

/-- The step at the end of the data: a procedure is pushed if braces that are open are closed, and some of them is
not the outermost. -/
def Session.lastSteps (o : Options) (fault : Option Fault) (s : Session) : List Step :=
  match fault, o.truncatedInput, s.recordings with
  | none, .tolerate, _ :: _ => [.direct]
  | _, _, _ => []

/-- The steps at the words of a transcript and at what comes after them. -/
def Transcript.steps (e : Elementary) (n : Nat) (o : Options) (t : Transcript) (stack : Stack) : List Step :=
  Session.runSteps e n o t.words { stack } ++
    match Session.run e n o t.words { stack } with
    | some (.ok s) => s.lastSteps o t.fault
    | _ => []

/-- **The steps of an evaluation**, with at most `n` replays under way at once. The inputs count, also when they
find no room. -/
def steps (e : Elementary) (n : Nat) (o : Options) (source : Source) (inputs : List Float) : List Step :=
  inputs.map (fun _ => .direct) ++
    match Action.outcome (Stack.pushNumbers inputs) { limit := o.maxStackDepth } with
    | .error _ => []
    | .ok stack => (Reader.ofSource o.bufferCapacity source).transcript.steps e n o stack

theorem slotsOf_nil : slotsOf [] = 0 :=
  rfl

theorem slotsOf_append (ss rest : List Step) : slotsOf (ss ++ rest) = slotsOf ss + slotsOf rest := by
  unfold slotsOf
  rw [List.filterMap_append, ← Multiset.coe_add]

theorem slotsOf_map_replayed (xs : List Slot) : slotsOf (xs.map .replayed) = xs := by
  unfold slotsOf
  rw [List.filterMap_map]
  exact congrArg _ List.filterMap_some

theorem slotsOf_map_direct (inputs : List Float) : slotsOf (inputs.map fun _ => .direct) = 0 := by
  unfold slotsOf
  rw [List.filterMap_map]
  exact congrArg _ (List.filterMap_eq_nil_iff.mpr fun _ _ => rfl)

/-! ## Recordings -/

/-- The slots of what has been recorded. -/
def Recording.slots (r : Recording) : Multiset Slot :=
  r.toProcedure.slots

/-- An instruction that is recorded makes a slot behind the others. -/
theorem Recording.slots_add (r : Recording) (i : Instruction) :
    (r.add i).slots = ⟨r.origin, r.latest.length, i⟩ ::ₘ (i.slots + r.slots) := by
  show slotsFrom r.origin 0 (i :: r.latest).reverse = _ ::ₘ (i.slots + slotsFrom r.origin 0 r.latest.reverse)
  rw [List.reverse_cons, slotsFrom_append, List.length_reverse, Nat.zero_add]
  simp only [slotsFrom]
  rw [Multiset.add_cons, add_zero, add_comm]

namespace Session

/-- The slots on the stack and in what is being recorded. -/
def slots (s : Session) : Multiset Slot :=
  s.stack.slots + (s.recordings.map Recording.slots).sum

/-- A block that is opened has no slots yet. -/
theorem slots_openBlock (s : Session) (depth opened : Nat) :
    slots ⟨s.stack, ⟨s.opened, []⟩ :: s.recordings, depth, opened⟩ = s.slots :=
  congrArg (s.stack.slots + ·) (zero_add _)

/-- How many steps there may still be without another token: one for each slot, and one for each block that will
be closed. -/
def weight (s : Session) : Nat :=
  s.slots.card + s.recordings.length

/-- No two instructions that were carried out in replays or can still be have a place in common, and what is being
recorded has room behind. -/
structure Linear (used : Multiset Slot) (s : Session) : Prop where
  copyFree : CopyFree (used + s.slots)
  nodup : ((used + s.slots).map Slot.place).Nodup
  origins : (s.recordings.map Recording.origin).Nodup
  opened : ∀ r ∈ s.recordings, r.origin < s.opened
  below : ∀ x ∈ used + s.slots, x.origin < s.opened
  room : ∀ r ∈ s.recordings, ∀ x ∈ used + s.slots, x.origin = r.origin → x.index < r.latest.length

variable {used used' : Multiset Slot} {s u : Session} {op : Operator} {t : Token}

namespace Linear

/-- **Slots are used up or lost**, blocks are opened and recordings given up. -/
theorem of_le (h : s.Linear used) (hslots : used' + u.slots ≤ used + s.slots)
    (hrec : u.recordings.Sublist s.recordings) (hopened : s.opened ≤ u.opened) : u.Linear used' where
  copyFree := h.copyFree.of_le hslots
  nodup := Multiset.nodup_of_le (Multiset.map_le_map hslots) h.nodup
  origins := h.origins.sublist (hrec.map _)
  opened r hr := Nat.lt_of_lt_of_le (h.opened r (hrec.subset hr)) hopened
  below x hx := Nat.lt_of_lt_of_le (h.below x (Multiset.mem_of_le hslots hx)) hopened
  room r hr x hx := h.room r (hrec.subset hr) x (Multiset.mem_of_le hslots hx)

/-- **One instruction is recorded.** -/
theorem record {i : Instruction} {r : Recording} {rs : List Recording} (h : s.Linear (used + i.slots))
    (hrec : s.recordings = r :: rs) (hi : ∀ op, i = .operator op → op.isCopying = false) :
    Linear used { s with recordings := r.add i :: rs } := by
  have htotal : used + slots { s with recordings := r.add i :: rs } =
      ⟨r.origin, r.latest.length, i⟩ ::ₘ (used + i.slots + s.slots) := by
    unfold slots
    rw [hrec, List.map_cons, List.map_cons, List.sum_cons, List.sum_cons, Recording.slots_add, Multiset.cons_add,
      Multiset.add_cons, Multiset.add_cons]
    congr 1
    show used + (s.stack.slots + (i.slots + r.slots + _)) = used + i.slots + (s.stack.slots + (r.slots + _))
    abel
  have horigins := h.origins
  rw [hrec, List.map_cons, List.nodup_cons] at horigins
  have hroom := h.room r (hrec ▸ List.mem_cons_self)
  refine ⟨?_, ?_, ?_, ?_, ?_, ?_⟩
  · rw [htotal]
    intro x hx
    rcases Multiset.mem_cons.mp hx with rfl | hx
    · exact hi
    · exact h.copyFree x hx
  · rw [htotal, Multiset.map_cons, Multiset.nodup_cons]
    refine ⟨fun hmem => ?_, h.nodup⟩
    obtain ⟨x, hx, hplace⟩ := Multiset.mem_map.mp hmem
    obtain ⟨horigin, hindex⟩ := Prod.mk.inj hplace
    exact absurd (hroom x hx horigin) (by rw [hindex]; exact Nat.lt_irrefl _)
  · rw [List.map_cons, List.nodup_cons]
    exact horigins
  · have hopened := h.opened
    rw [hrec] at hopened
    exact List.forall_mem_cons.mpr (List.forall_mem_cons.mp hopened)
  · rw [htotal]
    intro x hx
    rcases Multiset.mem_cons.mp hx with rfl | hx
    · exact h.opened r (hrec ▸ List.mem_cons_self)
    · exact h.below x hx
  · rw [htotal]
    intro r' hr' x hx horigin
    rcases List.mem_cons.mp hr' with rfl | hr' <;> rcases Multiset.mem_cons.mp hx with rfl | hx
    · exact Nat.lt_succ_self _
    · exact Nat.lt_succ_of_lt (hroom x hx horigin)
    · exact absurd (List.mem_map.mpr ⟨r', hr', horigin.symm⟩) horigins.1
    · exact h.room r' (hrec ▸ List.mem_cons_of_mem r hr') x hx horigin

/-- **A value** goes where values go, and its slots with it. -/
theorem deliver {v : Value} (h : s.Linear (used + v.slots)) (hr : s.deliver v = .ok u) : u.Linear used := by
  obtain ⟨r, rs, hrec, rfl⟩ | ⟨hrec, t, hpush, rfl⟩ := deliver_ok hr
  · rw [← Value.slots_toInstruction] at h
    refine h.record hrec ?_
    rintro op hop
    cases v <;> cases hop
  · refine h.of_le ?_ (List.Sublist.refl _) (Nat.le_refl _)
    have hstack : t.slots = v.slots + s.stack.slots := Stack.slots_of_push hpush
    show used + (t.slots + _) ≤ used + v.slots + (s.stack.slots + _)
    rw [hstack]
    exact le_of_eq (by abel)

theorem stack_le (s : Session) : s.stack.slots ≤ s.slots :=
  Multiset.le_add_right _ _

/-- What an operator carries out in replays, and what it leaves, was on the stack. -/
theorem spent (h : s.Linear used) (hop : op.isCopying = false) :
    (replayedBy e (replayed e n) op s.stack : Multiset Slot) + (execute e (replay e n) op s.stack).slots ≤
      s.stack.slots :=
  replayedBy_replayed_add_slots_le n hop
    (h.copyFree.of_le ((stack_le s).trans (Multiset.le_add_left _ _)))

/-- **An operator that is executed** uses up the slots that are carried out. -/
theorem execute {stack : Stack} (h : s.Linear used) (hop : op.isCopying = false)
    (hx : execute e (replay e n) op s.stack = some (.ok () stack)) :
    Linear (used + (replayedBy e (replayed e n) op s.stack : Multiset Slot)) { s with stack } := by
  have hspent := h.spent (e := e) (n := n) hop
  rw [hx] at hspent
  refine h.of_le ?_ (List.Sublist.refl _) (Nat.le_refl _)
  show used + _ + (stack.slots + _) ≤ used + (s.stack.slots + _)
  rw [add_assoc, ← add_assoc _ stack.slots]
  exact add_le_add_right (add_le_add_left hspent _) _

/-- **A block that is opened** holds nothing, and no slot has its origin yet. -/
theorem openBlock (h : s.Linear used) (hr : s.openBlock o = .ok u) : u.Linear used := by
  obtain ⟨-, rfl⟩ := openBlock_ok hr
  by_cases hd : s.depth = 0
  · rw [if_pos hd]
    exact h.of_le (le_refl _) (List.Sublist.refl _) (Nat.le_succ _)
  · rw [if_neg hd]
    refine ⟨?_, ?_, ?_, ?_, ?_, ?_⟩ <;> try rw [slots_openBlock]
    · exact h.copyFree
    · exact h.nodup
    · rw [List.map_cons, List.nodup_cons]
      refine ⟨fun hmem => ?_, h.origins⟩
      obtain ⟨r, hr, horigin⟩ := List.mem_map.mp hmem
      exact absurd (h.opened r hr) (by rw [horigin]; exact Nat.lt_irrefl _)
    · exact List.forall_mem_cons.mpr ⟨Nat.lt_succ_self _, fun r hr => Nat.lt_succ_of_lt (h.opened r hr)⟩
    · exact fun x hx => Nat.lt_succ_of_lt (h.below x hx)
    · refine List.forall_mem_cons.mpr ⟨fun x hx horigin => ?_, h.room⟩
      exact absurd (h.below x hx) (by rw [horigin]; exact Nat.lt_irrefl _)

/-- **A block that is closed** takes its slots along. -/
theorem closeBlock (h : s.Linear used) (hr : s.closeBlock o = .ok u) : u.Linear used := by
  obtain ⟨-, -, rfl⟩ | ⟨-, rfl⟩ | ⟨d, -, ⟨-, rfl⟩ | ⟨r, rs, v, hrec, hdel, rfl⟩⟩ := closeBlock_ok hr
  · exact h
  · exact h.of_le (le_refl _) (List.Sublist.refl _) (Nat.le_refl _)
  · exact h.of_le (le_refl _) (List.Sublist.refl _) (Nat.le_refl _)
  · have hbefore : Linear (used + r.slots) { s with recordings := rs } := by
      refine h.of_le ?_ (hrec ▸ List.sublist_cons_self r rs) (Nat.le_refl _)
      show used + r.slots + (s.stack.slots + _) ≤ used + (s.stack.slots + _)
      rw [hrec, List.map_cons, List.sum_cons]
      exact le_of_eq (by abel)
    have hv := hbefore.deliver (v := .procedure r.toProcedure) hdel
    exact hv.of_le (le_refl _) (List.Sublist.refl _) (Nat.le_refl _)

end Linear

/-! ## Steps at one token -/

theorem steps_of_recording {r : Recording} {rs : List Recording} (hrec : s.recordings = r :: rs)
    (ht : t.isBrace = false) : s.steps e n t = [] := by
  unfold steps
  rw [hrec]
  cases t with
  | number x => cases rs <;> rfl
  | boolean b => cases rs <;> rfl
  | operator op =>
    cases op with
    | openBrace | closeBrace => cases ht
    | _ => cases rs <;> rfl

theorem steps_of_operator (hrec : s.recordings = []) (ht : (Token.operator op).isBrace = false) :
    s.steps e n (.operator op) = .direct :: (replayedBy e (replayed e n) op s.stack).map .replayed := by
  unfold steps
  rw [hrec]
  cases op with
  | openBrace | closeBrace => cases ht
  | _ => rfl

theorem steps_open : s.steps e n (.operator .openBrace) = [] := by
  unfold steps
  match s.recordings with
  | [] | [_] | _ :: _ :: _ => rfl

theorem steps_close : slotsOf (s.steps e n (.operator .closeBrace)) = 0 ∧
    (s.steps e n (.operator .closeBrace)).length ≤ 1 := by
  unfold steps
  match s.recordings with
  | [] | _ :: _ :: _ => exact ⟨rfl, Nat.zero_le _⟩
  | [_] => exact ⟨rfl, Nat.le_refl _⟩

/-- **Whatever becomes of a token**, its steps come out of the session before it. -/
theorem Linear.steps_le (h : s.Linear used) (ht : t.isCopying = false) :
    slotsOf (s.steps e n t) ≤ s.slots ∧ (s.steps e n t).length ≤ s.weight + 1 := by
  have hnone : slotsOf ([] : List Step) ≤ s.slots ∧ ([] : List Step).length ≤ s.weight + 1 :=
    ⟨Multiset.zero_le _, Nat.zero_le _⟩
  obtain rfl | rfl | hplain := t.brace_cases
  · rw [steps_open]
    exact hnone
  · obtain ⟨hslots, hlen⟩ := steps_close (e := e) (n := n) (s := s)
    exact ⟨hslots ▸ Multiset.zero_le _, by omega⟩
  · cases hrec : s.recordings with
    | cons r rs =>
      rw [steps_of_recording hrec hplain]
      exact hnone
    | nil =>
      have hone : slotsOf [.direct] ≤ s.slots ∧ ([.direct] : List Step).length ≤ s.weight + 1 :=
        ⟨Multiset.zero_le _, by simp⟩
      cases t with
      | number x => simpa only [steps, hrec] using hone
      | boolean b => simpa only [steps, hrec] using hone
      | operator op =>
        have hspent := (Multiset.le_add_right _ _).trans ((h.spent (e := e) (n := n) ht).trans (stack_le s))
        have hcard := Multiset.card_le_card hspent
        rw [steps_of_operator hrec hplain]
        refine ⟨?_, ?_⟩
        · rw [← List.singleton_append, slotsOf_append, slotsOf_map_replayed]
          exact (zero_add _).trans_le hspent
        · rw [Multiset.coe_card] at hcard
          rw [List.length_cons, List.length_map]
          unfold weight
          omega

/-- After some steps at `k` tokens: the slots that were carried out are used up, and what is left and the steps
together are no more than what there was and the tokens. -/
structure Paid (used : Multiset Slot) (ss : List Step) (k : Nat) (s u : Session) : Prop where
  linear : u.Linear (used + slotsOf ss)
  weight : ss.length + u.weight ≤ s.weight + k

theorem Paid.trans {ss rest : List Step} {k l : Nat} {v : Session} (h : Paid used ss k s u)
    (hrest : Paid (used + slotsOf ss) rest l u v) : Paid used (ss ++ rest) (k + l) s v where
  linear := by
    rw [slotsOf_append, ← add_assoc]
    exact hrest.linear
  weight := by
    have hfirst := h.weight
    have hsecond := hrest.weight
    rw [List.length_append]
    omega

/-- An instruction that is recorded is paid for by its token. -/
theorem Linear.record_paid {i : Instruction} {r : Recording} {rs : List Recording} (h : s.Linear used)
    (hrec : s.recordings = r :: rs) (hslots : i.slots = 0)
    (hi : ∀ op, i = .operator op → op.isCopying = false) :
    Paid used [] 1 s { s with recordings := r.add i :: rs } where
  linear := by
    have h' : s.Linear (used + i.slots) := by rwa [hslots, add_zero]
    rw [slotsOf_nil, add_zero]
    exact h'.record hrec hi
  weight := by
    unfold Session.weight slots
    simp only [hrec, List.map_cons, List.sum_cons, Recording.slots_add, hslots, Multiset.card_add, Multiset.card_cons,
      Multiset.card_zero, List.length_cons, List.length_nil]
    omega

/-- **A number or a boolean.** -/
theorem Linear.deliver_paid {v : Value} (h : s.Linear used) (hv : v.slots = 0) (hplain : t.isBrace = false)
    (hsteps : s.recordings = [] → s.steps e n t = [.direct]) (hr : s.deliver v = .ok u) :
    Paid used (s.steps e n t) 1 s u := by
  obtain ⟨r, rs, hrec, rfl⟩ | ⟨hrec, stack, hpush, rfl⟩ := deliver_ok hr
  · rw [steps_of_recording hrec hplain]
    refine h.record_paid hrec (v.slots_toInstruction.trans hv) ?_
    rintro op hop
    cases v <;> cases hop
  · have hstack : stack.slots = s.stack.slots := by rw [Stack.slots_of_push hpush, hv, zero_add]
    have hslots : slots { s with stack } = s.slots := congrArg (· + _) hstack
    rw [hsteps hrec]
    have hleft : used + slotsOf [.direct] + slots { s with stack } ≤ used + s.slots :=
      add_le_add (le_of_eq (add_zero used)) (le_of_eq hslots)
    refine ⟨h.of_le hleft (List.Sublist.refl _) (Nat.le_refl _), ?_⟩
    show 1 + ((slots { s with stack }).card + s.recordings.length) ≤ s.slots.card + s.recordings.length + 1
    rw [hslots]
    omega

/-- **An operator** other than the braces. -/
theorem Linear.operate_paid (h : s.Linear used) (hop : op.isCopying = false)
    (hplain : (Token.operator op).isBrace = false) (hr : s.operate e n op = some (.ok u)) :
    Paid used (s.steps e n (.operator op)) 1 s u := by
  obtain ⟨r, rs, hrec, rfl⟩ | ⟨hrec, stack, hx, rfl⟩ := operate_ok hr
  · rw [steps_of_recording hrec hplain]
    refine h.record_paid hrec rfl ?_
    rintro _ ⟨⟩
    exact hop
  · rw [steps_of_operator hrec hplain]
    refine ⟨?_, ?_⟩
    · rw [← List.singleton_append, slotsOf_append, slotsOf_map_replayed]
      exact (congrArg (used + ·) (zero_add _)).symm ▸ h.execute hop hx
    · have hspent := h.spent (e := e) (n := n) hop
      rw [hx] at hspent
      have hcard := Multiset.card_le_card hspent
      rw [Multiset.card_add, Multiset.coe_card] at hcard
      have hleft : (Run.slots (some (.ok () stack))).card = stack.slots.card := rfl
      unfold Session.weight slots
      simp only [hrec, List.length_cons, List.length_map, List.map_nil, List.sum_nil, add_zero, List.length_nil]
      omega

/-- **An opening brace** may be recorded later. -/
theorem Linear.openBlock_paid (h : s.Linear used) (hr : s.openBlock o = .ok u) :
    Paid used (s.steps e n (.operator .openBrace)) 1 s u := by
  rw [steps_open]
  refine ⟨by rw [slotsOf_nil, add_zero]; exact h.openBlock hr, ?_⟩
  obtain ⟨-, rfl⟩ := openBlock_ok hr
  by_cases hd : s.depth = 0
  · rw [if_pos hd]
    show 0 + s.weight ≤ s.weight + 1
    omega
  · rw [if_neg hd]
    unfold Session.weight
    rw [slots_openBlock]
    simp only [List.length_cons, List.length_nil]
    omega

/-- **A closing brace** was paid for when the block was opened. -/
theorem Linear.closeBlock_paid (h : s.Linear used) (hr : s.closeBlock o = .ok u) :
    Paid used (s.steps e n (.operator .closeBrace)) 1 s u := by
  obtain ⟨hnone, hlen⟩ := steps_close (e := e) (n := n) (s := s)
  suffices hweight : u.weight ≤ s.weight by
    refine ⟨?_, by omega⟩
    rw [hnone, add_zero]
    exact h.closeBlock hr
  obtain ⟨-, -, rfl⟩ | ⟨-, rfl⟩ | ⟨d, -, ⟨-, rfl⟩ | ⟨r, rs, v, hrec, hdel, rfl⟩⟩ := closeBlock_ok hr
  · exact Nat.le_refl _
  · exact Nat.le_refl _
  · exact Nat.le_refl _
  · have hvalue : (Value.procedure r.toProcedure).slots = r.slots := rfl
    obtain ⟨r', rs', hrec', rfl⟩ | ⟨hrec', t, hpush, rfl⟩ := deliver_ok hdel
    · -- the recording around it has one instruction more, and there is one recording less
      obtain rfl : rs = r' :: rs' := hrec'
      unfold weight slots
      simp only [hrec, List.map_cons, List.sum_cons, Recording.slots_add, Value.slots_toInstruction, hvalue,
        Multiset.card_add, Multiset.card_cons, List.length_cons]
      omega
    · obtain rfl : rs = [] := hrec'
      unfold weight slots
      simp only [hrec, Stack.slots_of_push hpush, hvalue, List.map_cons, List.map_nil, List.sum_cons, List.sum_nil,
        Multiset.card_add, Multiset.card_zero, List.length_cons, List.length_nil]
      omega

/-- **One token.** -/
theorem Linear.accept (h : s.Linear used) (ht : t.isCopying = false) (hr : s.accept e n o t = some (.ok u)) :
    Paid used (s.steps e n t) 1 s u := by
  cases t with
  | number x =>
    exact h.deliver_paid (v := .number x) rfl rfl (fun hrec => by simp only [steps, hrec]) (Option.some.inj hr)
  | boolean b =>
    exact h.deliver_paid (v := .boolean b) rfl rfl (fun hrec => by simp only [steps, hrec]) (Option.some.inj hr)
  | operator op =>
    cases op with
    | openBrace => exact h.openBlock_paid (Option.some.inj hr)
    | closeBrace => exact h.closeBlock_paid (Option.some.inj hr)
    | _ => exact h.operate_paid ht rfl hr

/-! ## All words -/

section

variable {w : Word} {ws : List Word}

theorem runSteps_of_error {f : Fault} (ht : Token.ofWord o.unknownTokens w = .error f) :
    s.runSteps e n o (w :: ws) = [] := by
  rw [runSteps, ht]

theorem runSteps_of_ok (ht : Token.ofWord o.unknownTokens w = .ok t) (hu : s.accept e n o t = some (.ok u)) :
    s.runSteps e n o (w :: ws) = s.steps e n t ++ u.runSteps e n o ws := by
  rw [runSteps, ht]
  simp only [hu]

/-- A token that is not accepted is the last. -/
theorem runSteps_of_not_ok (ht : Token.ofWord o.unknownTokens w = .ok t)
    (hu : ∀ u, s.accept e n o t ≠ some (.ok u)) : s.runSteps e n o (w :: ws) = s.steps e n t := by
  rw [runSteps, ht]
  cases hr : s.accept e n o t with
  | none => simp only [hr, List.append_nil]
  | some r =>
    cases r with
    | error f => simp only [hr, List.append_nil]
    | ok u => exact absurd hr (hu u)

/-- **A session that goes through all words.** -/
theorem Linear.run_paid (h : s.Linear used) (hws : ∀ w ∈ ws, (Token.ofWordLeniently w).isCopying = false)
    (hr : run e n o ws s = some (.ok u)) : Paid used (s.runSteps e n o ws) ws.length s u := by
  induction ws generalizing used s with
  | nil =>
    cases hr
    refine ⟨?_, Nat.le_of_eq (Nat.zero_add _)⟩
    rw [runSteps, slotsOf_nil, add_zero]
    exact h
  | cons w ws ih =>
    obtain ⟨hw, hws⟩ := List.forall_mem_cons.mp hws
    obtain ⟨t, ht, ⟨-, hnone⟩ | ⟨v, hv, hr⟩⟩ := run_cons_cases hr (by simp)
    · cases hnone
    rw [Token.ofWordLeniently_of_ok ht] at hw
    have hfirst := h.accept hw hv
    rw [runSteps_of_ok ht hv, List.length_cons, Nat.add_comm]
    exact hfirst.trans (ih hfirst.linear hws hr)

/-- **Whatever becomes of a session**, no two steps in replays have a place in common, and there are few steps. -/
theorem Linear.runSteps_le (h : s.Linear used) (hws : ∀ w ∈ ws, (Token.ofWordLeniently w).isCopying = false) :
    ((used + slotsOf (s.runSteps e n o ws)).map Slot.place).Nodup ∧
      (s.runSteps e n o ws).length ≤ s.weight + ws.length := by
  have hstop {used : Multiset Slot} {s : Session} {ss : List Step} (h : s.Linear used) (hss : slotsOf ss ≤ s.slots) :
      ((used + slotsOf ss).map Slot.place).Nodup :=
    Multiset.nodup_of_le (Multiset.map_le_map (add_le_add_right hss used)) h.nodup
  induction ws generalizing used s with
  | nil => exact ⟨hstop h (Multiset.zero_le _), Nat.zero_le _⟩
  | cons w ws ih =>
    obtain ⟨hw, hws⟩ := List.forall_mem_cons.mp hws
    cases ht : Token.ofWord o.unknownTokens w with
    | error f =>
      rw [runSteps_of_error ht]
      exact ⟨hstop h (Multiset.zero_le _), Nat.zero_le _⟩
    | ok t =>
      rw [Token.ofWordLeniently_of_ok ht] at hw
      by_cases hu : ∃ u, s.accept e n o t = some (.ok u)
      · obtain ⟨u, hu⟩ := hu
        have hfirst := h.accept hw hu
        obtain ⟨hnodup, hlen⟩ := ih hfirst.linear hws
        have hweight := hfirst.weight
        rw [runSteps_of_ok ht hu, slotsOf_append, ← add_assoc, List.length_append, List.length_cons]
        exact ⟨hnodup, by omega⟩
      · obtain ⟨hslots, hlen⟩ := h.steps_le (e := e) (n := n) hw
        rw [runSteps_of_not_ok ht (not_exists.mp hu), List.length_cons]
        exact ⟨hstop h hslots, by omega⟩

/-- **Sessions end.** -/
theorem Linear.run_ne_none (h : s.Linear used) (hws : ∀ w ∈ ws, (Token.ofWordLeniently w).isCopying = false)
    (hn : s.weight + ws.length ≤ n) : run e n o ws s ≠ none := by
  rw [Ne, run_eq_none_iff]
  rintro ⟨p, t, ⟨before, w, after, u, m, op, rfl, hbefore, ht, hrec, hchooses⟩, hnone⟩
  have hpaid := h.run_paid (fun w hw => hws w (List.mem_append_left _ hw)) hbefore
  have hchosen : p.slots + t.slots ≤ u.slots := hchooses.slots_le.trans (Linear.stack_le u)
  refine replay_ne_none (hpaid.linear.copyFree.of_le (hchosen.trans (Multiset.le_add_left _ _))) ?_ hnone
  have hcard := Multiset.card_le_card hchosen
  have hweight := hpaid.weight
  rw [List.length_append, List.length_cons] at hn
  unfold weight at hweight hn
  omega

end

end Session

/-! ## Whole programs -/

/-- Inputs are numbers, so nothing has been recorded yet. -/
theorem Session.linear_of_inputs {inputs : List Float} {stack : Stack}
    (h : Action.outcome (Stack.pushNumbers inputs) { limit := o.maxStackDepth } = .ok stack) :
    Session.Linear 0 { stack } ∧ Session.weight { stack } = 0 := by
  obtain ⟨_, hpush⟩ := Action.outcome_eq_ok h
  have hall : stack.All (fun _ => False) o.maxStackDepth := .of_inputs hpush
  have hstack : stack.slots = 0 := by
    refine List.sum_eq_zero (List.forall_mem_map.mpr fun v hv => ?_)
    cases v with
    | number x => rfl
    | boolean b => rfl
    | procedure p => exact (hall.items _ hv).elim
  have hslots : slots { stack } = 0 := by
    rw [slots, hstack]
    rfl
  have hnone : ∀ x, x ∉ (0 : Multiset Slot) + slots { stack } := by simp [hslots]
  have hbelow : ∀ x ∈ (0 : Multiset Slot) + slots { stack }, x.origin < 0 := fun x hx => absurd hx (hnone x)
  refine ⟨⟨fun x hx => absurd hx (hnone x), by simp [hslots], .nil, by simp, hbelow, by simp⟩, ?_⟩
  rw [weight, hslots]
  rfl

theorem Session.slotsOf_lastSteps (fault : Option Fault) (s : Session) : slotsOf (s.lastSteps o fault) = 0 := by
  unfold lastSteps
  split <;> rfl

theorem Session.length_lastSteps_le (fault : Option Fault) (s : Session) :
    (s.lastSteps o fault).length ≤ s.weight := by
  unfold lastSteps weight
  split
  · rename_i hrec
    rw [hrec, List.length_cons, List.length_cons, List.length_nil]
    omega
  · exact Nat.zero_le _

/-- **The words of a transcript and what comes after them**, on a stack that holds nothing but inputs. -/
theorem Transcript.steps_le {t : Transcript} {stack : Stack} (h : Session.Linear 0 { stack })
    (ht : ∀ w ∈ t.words, (Token.ofWordLeniently w).isCopying = false) :
    ((slotsOf (t.steps e n o stack)).map Slot.place).Nodup ∧
      (t.steps e n o stack).length ≤ Session.weight { stack } + t.words.length := by
  obtain ⟨hnodup, hlen⟩ := h.runSteps_le (e := e) (n := n) (o := o) ht
  rw [zero_add] at hnodup
  unfold steps
  by_cases hu : ∃ u, Session.run e n o t.words { stack } = some (.ok u)
  · obtain ⟨u, hu⟩ := hu
    have hlast := u.length_lastSteps_le (o := o) t.fault
    have hweight := (h.run_paid ht hu).weight
    simp only [hu]
    rw [slotsOf_append, Session.slotsOf_lastSteps, add_zero, List.length_append]
    exact ⟨hnodup, by omega⟩
  · split
    · exact absurd ⟨_, ‹_›⟩ hu
    · rw [List.append_nil]
      exact ⟨hnodup, hlen⟩

variable {source : Source} {inputs : List Float}

/-- **Programs that copy nothing end, in few steps.** If `dup`, `copy` and `index` are not among the tokens of the
text, an evaluation ends, under every bound that is not below the number of tokens. Under any bound, no two
instructions that are carried out in replays are one and the same of the text, and there are no more steps than
tokens and inputs. -/
theorem evaluate_linear (e : Elementary) (o : Options) (source : Source) (inputs : List Float)
    (h : ∀ t ∈ tokensOf source.delivered.bytes, t.isCopying = false) :
    (∀ n, (tokensOf source.delivered.bytes).length ≤ n → ∃ r, evaluate e n o source inputs = some r) ∧
      ∀ n, ((slotsOf (steps e n o source inputs)).map Slot.place).Nodup ∧
        (steps e n o source inputs).length ≤ (tokensOf source.delivered.bytes).length + inputs.length := by
  -- the words that are read, against those of the text
  obtain ⟨t, ht⟩ : ∃ t, t = (Reader.ofSource o.bufferCapacity source).transcript := ⟨_, rfl⟩
  have hread : t.words <+: words source.delivered.bytes := ht ▸ words_transcript_ofSource_isPrefix _ _
  have hws : ∀ w ∈ t.words, (Token.ofWordLeniently w).isCopying = false :=
    fun w hw => h _ (List.mem_map_of_mem (hread.subset hw))
  have hlen : t.words.length ≤ (tokensOf source.delivered.bytes).length := by
    rw [tokensOf, List.length_map]
    exact hread.length_le
  unfold evaluate steps
  rw [← ht]
  cases hp : Action.outcome (Stack.pushNumbers inputs) { limit := o.maxStackDepth } with
  | error f =>
    refine ⟨fun n _ => ⟨_, rfl⟩, fun n => ?_⟩
    rw [slotsOf_append, slotsOf_map_direct, List.length_append, List.length_map]
    exact ⟨.nil, by simp⟩
  | ok stack =>
    obtain ⟨hlinear, hweight⟩ := Session.linear_of_inputs hp
    refine ⟨fun n hn => ?_, fun n => ?_⟩
    · have hends := hlinear.run_ne_none (e := e) (o := o) (n := n) hws (by omega)
      obtain ⟨r, hr⟩ := Option.ne_none_iff_exists'.mp hends
      exact ⟨_, congrArg (Option.map _) hr⟩
    · obtain ⟨hnodup, hsteps⟩ := Transcript.steps_le (e := e) (n := n) (o := o) hlinear hws
      rw [slotsOf_append, slotsOf_map_direct, zero_add, List.length_append, List.length_map]
      refine ⟨hnodup, ?_⟩
      show inputs.length + (Transcript.steps e n o _ stack).length ≤ _
      omega

/-! ### Blocks that change places -/

/-- The text `{true false{true{not}if}{}exch ifelse}`. -/
def exchangedBlocks : List UInt8 :=
  [openByte, 0x74, 0x72, 0x75, 0x65, 0x20, 0x66, 0x61, 0x6C, 0x73, 0x65, 0x7B, 0x74, 0x72, 0x75, 0x65,
    0x7B, 0x6E, 0x6F, 0x74, 0x7D, 0x69, 0x66, 0x7D, 0x7B, 0x7D, 0x65, 0x78, 0x63, 0x68, 0x20, 0x69, 0x66,
    0x65, 0x6C, 0x73, 0x65, closeByte]

/-- The exchange puts the block with a block inside where `ifelse` looks for it. -/
theorem evaluate_linear_exchangedBlocks :
    (∀ t ∈ tokensOf (Source.ofBytes exchangedBlocks).delivered.bytes, t.isCopying = false) ∧
      (∃ r, evaluate .machine 15 {} (.ofBytes exchangedBlocks) [] = some r) ∧
      ((slotsOf (steps .machine 15 {} (.ofBytes exchangedBlocks) [])).map Slot.place).Nodup ∧
      (steps .machine 15 {} (.ofBytes exchangedBlocks) []).length ≤ 15 := by
  have hbytes : (Source.ofBytes exchangedBlocks).delivered.bytes = exchangedBlocks := by
    rw [(Source.ofBytes_delivers _).delivered]
  have hcopying : ∀ t ∈ tokensOf (Source.ofBytes exchangedBlocks).delivered.bytes, t.isCopying = false := by
    rw [hbytes]
    decide
  have htokens : (tokensOf (Source.ofBytes exchangedBlocks).delivered.bytes).length = 15 := by
    rw [hbytes]
    rfl
  obtain ⟨hends, hsteps⟩ := evaluate_linear .machine {} (.ofBytes exchangedBlocks) [] hcopying
  rw [htokens] at hends hsteps
  exact ⟨hcopying, hends 15 (Nat.le_refl _), hsteps 15⟩

/-- Ten steps, four of them in replays: three in the block that is chosen, and one in the block inside. -/
example : (Session.runSteps .machine 2 {} (words exchangedBlocks) { stack := ⟨[], some 100⟩ }).map
      (fun x => x.slot?.map Slot.place) =
    [none, none, none, none, none, none, some (1, 0), some (1, 1), some (1, 2), some (2, 0)] :=
  rfl

end TypeFour
