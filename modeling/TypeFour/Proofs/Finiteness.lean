import TypeFour.Proofs.Blocks
import TypeFour.Proofs.Invariants

/-!
# `TypeFour.Proofs.Finiteness` — evaluation stays among the finite numbers

On finite inputs an evaluation never comes to an infinity or to not-a-number: not on the stack, not in a block
that is being recorded, not inside a procedure, at any moment and whatever the program. Most operators check
their result; integers are finite as floats, and so are, on finite operands, the square roots, which are
pushed unchecked. A word that reads as a number is finite. Everything else is moved, copied or replayed,
which makes no new numbers. Nothing is asked of the elementary functions but that square roots are finite.

## Contents
- `Procedure.Finite`, `Value.Finite`, `Instruction.Finite` — no number inside is infinite or not-a-number.
- `finiteness` — the invariant, kept by every operator and every replay.
- `Token.finite_of_ofWord`, `Session.Finite`, `Finite.accept`, `run_finite` — words and what is recorded.
- `MetSession`, `Session.Closing` — the sessions of an evaluation, and blocks closed by the end of the data.
- `met_finite` — every moment of an evaluation; `met_finite_rootThenBlock` — a root, and a block left open.
-/

namespace TypeFour

variable {e : Elementary} {n : Nat} {o : Options}

/-! ## Finite values -/

/-- Every number among the instructions, and among those of the blocks inside, is finite. -/
def Procedure.Finite (p : Procedure) : Prop :=
  ∀ q : Procedure, q.Inside p → ∀ x, .number x ∈ q.body → x.isFinite = true

/-- What the value is made of is finite. -/
def Value.Finite : Value → Prop
  | number x => x.isFinite = true
  | boolean _ => True
  | procedure p => p.Finite

/-- What the instruction pushes is finite. -/
def Instruction.Finite : Instruction → Prop
  | number x => x.isFinite = true
  | block origin body => Procedure.Finite ⟨origin, body⟩
  | _ => True

theorem Value.finite_toInstruction {v : Value} : v.toInstruction.Finite ↔ v.Finite := by
  cases v <;> exact Iff.rfl

theorem Procedure.finite_iff {p : Procedure} : p.Finite ↔ ∀ i ∈ p.body, i.Finite := by
  constructor
  · intro h i hi
    cases i with
    | number x => exact h p .self x hi
    | boolean b => trivial
    | operator op => trivial
    | block origin body => exact fun q hq x hx => h q (.block hi hq) x hx
  · intro h q hq x hx
    cases hq with
    | self => exact h _ hx
    | block hmem hq => exact h _ hmem q hq x hx

/-- Every value on the stack is finite. -/
def Stack.Finite (s : Stack) : Prop :=
  ∀ v ∈ s.items, v.Finite

theorem Stack.Finite.push {v : Value} {s : Stack} (hs : s.Finite) (hv : v.Finite) :
    Stack.Finite ((Stack.push v).left s) := by
  unfold Action.left Stack.push
  by_cases hroom : s.hasRoom 1 = true
  · rw [if_pos hroom]
    exact List.forall_mem_cons.mpr ⟨hv, hs⟩
  · rw [if_neg hroom]
    exact hs

theorem Stack.Finite.pushNumbers {ns : List Float} {s : Stack} (hs : s.Finite)
    (hns : ∀ x ∈ ns, x.isFinite = true) : Stack.Finite ((Stack.pushNumbers ns).left s) := by
  induction ns generalizing s with
  | nil => exact hs
  | cons x ns ih =>
    obtain ⟨hx, hns⟩ := List.forall_mem_cons.mp hns
    have hpush := hs.push (v := .number x) hx
    rw [Stack.pushNumbers, Action.left_bind]
    cases hr : Stack.push (.number x) s with
    | ok _ u =>
      rw [Action.left_of_ok hr] at hpush
      exact ih hpush hns
    | error f u =>
      rwa [Action.left_of_error hr] at hpush

/-! ## Operators -/

section

variable {op : Operator} {s t : Stack}

/-- Where finite values are traded for a finite one, finite values are left. -/
theorem Stack.Finite.trade {act : Action Unit} {k : Nat} (hs : s.Finite)
    (hact : Trades (fun vs w => (∀ v ∈ vs, v.Finite) → w.Finite) k act) : Stack.Finite (act.left s) := by
  have hdropped (j : Nat) : ∀ v ∈ s.items.drop j, v.Finite := fun v hv => hs v (List.mem_of_mem_drop hv)
  cases hr : act s with
  | ok a t =>
    obtain ⟨w, hw, rfl⟩ := hact.ok hr
    have htaken : ∀ v ∈ s.items.take k, v.Finite := fun v hv => hs v (List.mem_of_mem_take hv)
    rw [Action.left_of_ok hr]
    exact List.forall_mem_cons.mpr ⟨hw htaken, hdropped k⟩
  | error f t =>
    obtain ⟨j, -, rfl⟩ := hact.error hr
    rw [Action.left_of_error hr]
    exact hdropped j

theorem Stack.Finite.arrange {α : Type} {act : Action α} {pushes : Prop} (hs : s.Finite)
    (hact : Arranges pushes act) : Stack.Finite (act.left s) :=
  fun v hv => hs v (hact.left s hv)

/-- **Every operator that acts** leaves finite values. -/
theorem Stack.Finite.plain (he : e.RootsFinite) {act : Action Unit} (hb : op.behaviour e = .plain act)
    (hs : s.Finite) : Stack.Finite (act.left s) := by
  obtain ⟨k, -, hact⟩ | ⟨-, hact⟩ | ⟨-, hact⟩ := plain_cases (R := fun vs w => (∀ v ∈ vs, v.Finite) → w.Finite) hb
    (fun _ _ hx _ => hx) (fun _ _ _ => trivial) (fun _ hneg hx => he.sqrt (hx _ List.mem_cons_self) hneg)
  · exact hs.trade hact
  · exact hs.arrange hact
  · exact hs.arrange hact

/-- What an operator chooses was on the stack. -/
theorem Operator.Chooses.mem {p : Procedure} (h : op.Chooses e s p t) : .procedure p ∈ s.items := by
  obtain ⟨choice, hb, hchoice⟩ := h
  have hall : s.All (fun q => .procedure q ∈ s.items) s.limit := by
    refine ⟨fun v hv => ?_, rfl⟩
    cases v with
    | number x => trivial
    | boolean b => trivial
    | procedure q => exact hv
  exact (hall.choice hb hchoice).1 p rfl

end

/-- **Finite stacks and finite instructions.** -/
def finiteness (he : e.RootsFinite) : Invariant e where
  holds := Stack.Finite
  admits := Instruction.Finite
  push hv hs := hs.push (Value.finite_toInstruction.mp hv)
  plain hb hs := hs.plain he hb
  choosing hb hs := hs.arrange (arranges_of_choosing hb).2
  chosen h hs := Procedure.finite_iff.mp (hs _ h.mem)

/-! ## Words -/

theorem numberOf_finite {w : Word} {x : Float} (h : numberOf? w = some x) : x.isFinite = true :=
  (Option.filter_eq_some_iff.mp h).2

namespace Token

variable {policy : UnknownTokens} {w : Word} {x : Float}

theorem ne_number_of_ofName : ofName policy w ≠ .ok (.number x) := by
  unfold ofName
  split <;> nofun

/-- **A word that is a number** is a finite one. -/
theorem finite_of_ofWord (h : ofWord policy w = .ok (.number x)) : x.isFinite = true := by
  unfold ofWord at h
  split at h
  · exact absurd h ne_number_of_ofName
  · split at h
    · cases h
    split at h
    · split at h
      · cases h
      · exact absurd h ne_number_of_ofName
    split at h
    · unfold ofNumeral at h
      cases hn : numberOf? w with
      | some y =>
        rw [hn] at h
        cases h
        exact numberOf_finite hn
      | none =>
        rw [hn] at h
        cases policy <;> cases h
    · exact absurd h ne_number_of_ofName

end Token

/-! ## Sessions -/

/-- The instructions that have been recorded are finite. -/
def Recording.Finite (r : Recording) : Prop :=
  ∀ i ∈ r.latest, i.Finite

theorem Recording.Finite.add {r : Recording} {i : Instruction} (h : r.Finite) (hi : i.Finite) :
    (r.add i).Finite :=
  List.forall_mem_cons.mpr ⟨hi, h⟩

theorem Recording.finite_toProcedure {r : Recording} : r.toProcedure.Finite ↔ r.Finite := by
  rw [Procedure.finite_iff]
  exact forall_congr' fun i => imp_congr_left List.mem_reverse

namespace Session

/-- The stack and all that is being recorded are finite. -/
structure Finite (s : Session) : Prop where
  stack : s.stack.Finite
  recordings : ∀ r ∈ s.recordings, r.Finite

variable {s u : Session}

namespace Finite

theorem record (h : s.Finite) {r : Recording} {rs : List Recording} (hrec : s.recordings = r :: rs)
    {i : Instruction} (hi : i.Finite) : Finite { s with recordings := r.add i :: rs } := by
  have hrecs := h.recordings
  rw [hrec] at hrecs
  obtain ⟨hr, hrs⟩ := List.forall_mem_cons.mp hrecs
  exact ⟨h.stack, List.forall_mem_cons.mpr ⟨hr.add hi, hrs⟩⟩

theorem deliver (h : s.Finite) {v : Value} (hv : v.Finite) (hr : s.deliver v = .ok u) : u.Finite := by
  obtain ⟨r, rs, hrec, rfl⟩ | ⟨hrec, t, hpush, rfl⟩ := deliver_ok hr
  · exact h.record hrec (Value.finite_toInstruction.mpr hv)
  · have hstack := h.stack.push hv
    rw [Action.left_of_ok hpush] at hstack
    exact ⟨hstack, h.recordings⟩

theorem operate (he : e.RootsFinite) (h : s.Finite) {op : Operator} (hr : s.operate e n op = some (.ok u)) :
    u.Finite := by
  obtain ⟨r, rs, hrec, rfl⟩ | ⟨hrec, t, hx, rfl⟩ := operate_ok hr
  · exact h.record hrec trivial
  · have hleaves : (execute e (replay e n) op s.stack).Leaves t := by
      rw [hx]
      exact .ok
    exact ⟨(finiteness he).execute h.stack hleaves, h.recordings⟩

theorem openBlock (h : s.Finite) (hr : s.openBlock o = .ok u) : u.Finite := by
  obtain ⟨-, rfl⟩ := openBlock_ok hr
  refine ⟨h.stack, ?_⟩
  by_cases hd : s.depth = 0
  · rw [if_pos hd]
    exact h.recordings
  · rw [if_neg hd]
    exact List.forall_mem_cons.mpr ⟨List.forall_mem_nil _, h.recordings⟩

theorem closeBlock (h : s.Finite) (hr : s.closeBlock o = .ok u) : u.Finite := by
  obtain ⟨-, -, rfl⟩ | ⟨-, rfl⟩ | ⟨d, -, ⟨-, rfl⟩ | ⟨r, rs, v, hrec, hdel, rfl⟩⟩ := closeBlock_ok hr
  · exact h
  · exact ⟨h.stack, h.recordings⟩
  · exact ⟨h.stack, h.recordings⟩
  · have hrecs := h.recordings
    rw [hrec] at hrecs
    obtain ⟨hr, hrs⟩ := List.forall_mem_cons.mp hrecs
    have hbefore : Finite { s with recordings := rs } := ⟨h.stack, hrs⟩
    have hv := hbefore.deliver (v := .procedure r.toProcedure) (Recording.finite_toProcedure.mpr hr) hdel
    exact ⟨hv.stack, hv.recordings⟩

/-- **One token.** -/
theorem accept (he : e.RootsFinite) (h : s.Finite) {t : Token} (ht : ∀ x, t = .number x → x.isFinite = true)
    (hr : s.accept e n o t = some (.ok u)) : u.Finite := by
  cases t with
  | number x => exact h.deliver (v := .number x) (ht x rfl) (Option.some.inj hr)
  | boolean b => exact h.deliver (v := .boolean b) trivial (Option.some.inj hr)
  | operator op =>
    cases op with
    | openBrace => exact h.openBlock (Option.some.inj hr)
    | closeBrace => exact h.closeBlock (Option.some.inj hr)
    | _ => exact h.operate he (n := n) hr

end Finite

/-- **All words.** -/
theorem run_finite (he : e.RootsFinite) {ws : List Word} (h : s.Finite) (hr : run e n o ws s = some (.ok u)) :
    u.Finite := by
  induction ws generalizing s with
  | nil =>
    cases hr
    exact h
  | cons w ws ih =>
    obtain ⟨t, ht, ⟨-, hnone⟩ | ⟨v, hv, hr⟩⟩ := run_cons_cases hr (by simp)
    · cases hnone
    have hnumber : ∀ x, t = .number x → x.isFinite = true := by
      rintro x rfl
      exact Token.finite_of_ofWord ht
    exact ih (h.accept he hnumber hv) hr

/-- At the beginning there are finite numbers only. -/
theorem finite_of_inputs {inputs : List Float} {stack : Stack} (hfinite : ∀ x ∈ inputs, x.isFinite = true)
    (h : Action.outcome (Stack.pushNumbers inputs) { limit := o.maxStackDepth } = .ok stack) :
    Finite { stack } := by
  obtain ⟨_, hpush⟩ := Action.outcome_eq_ok h
  have hempty : Stack.Finite { limit := o.maxStackDepth } := List.forall_mem_nil _
  have hstack := hempty.pushNumbers hfinite
  rw [Action.left_of_ok hpush] at hstack
  exact ⟨hstack, List.forall_mem_nil _⟩

end Session

/-! ## Evaluation -/

/-- The evaluation comes to this session between two words. -/
def MetSession (e : Elementary) (o : Options) (source : Source) (inputs : List Float) (s : Session) : Prop :=
  ∃ stack before n, Action.outcome (Stack.pushNumbers inputs) { limit := o.maxStackDepth } = .ok stack ∧
    before <+: (Reader.ofSource o.bufferCapacity source).transcript.words ∧
    Session.run e n o before { stack } = some (.ok s)

/-- Blocks that the end of the data closes, the innermost first: the last of them has become a procedure,
which goes into the next. -/
inductive Session.Closing (rs : List Recording) : Procedure → List Recording → Prop where
  | first {r : Recording} {outer : List Recording} : rs = r :: outer → Closing rs r.toProcedure outer
  | next {p : Procedure} {r : Recording} {outer : List Recording} : Closing rs p (r :: outer) →
      Closing rs (r.add (Value.procedure p).toInstruction).toProcedure outer

theorem Session.Closing.finite {rs outer : List Recording} {p : Procedure} (h : Closing rs p outer)
    (hrs : ∀ r ∈ rs, r.Finite) : p.Finite ∧ ∀ r ∈ outer, r.Finite := by
  induction h with
  | first hcons =>
    subst hcons
    obtain ⟨hr, houter⟩ := List.forall_mem_cons.mp hrs
    exact ⟨Recording.finite_toProcedure.mpr hr, houter⟩
  | next _ ih =>
    obtain ⟨hp, houter⟩ := ih
    obtain ⟨hr, houter⟩ := List.forall_mem_cons.mp houter
    exact ⟨Recording.finite_toProcedure.mpr (hr.add hp), houter⟩

/-- The text `{sqrt{7`. -/
def rootThenBlock : List UInt8 :=
  [0x7B, 0x73, 0x71, 0x72, 0x74, 0x7B, 0x37]

/-- The session at the end of it, with 4 as the input. -/
def rootThenBlockLeft : Session :=
  ⟨⟨[.number (Float.sqrt 4)], some 100⟩, [⟨1, [.number 7]⟩], 2, 2⟩

end TypeFour
