import TypeFour.Proofs.Deferred
import TypeFour.Proofs.Room
import TypeFour.Proofs.Unchosen

/-!
# `TypeFour.Proofs.Composition` — one program after another

Tokens whose braces match leave nothing behind them, inside the outermost braces, but the stack: no block is being
recorded, and the depth is what it was. If there are only numbers on the stack, they might as well have been
inputs. So a program goes on after such tokens as it would begin with those inputs, whatever it is, also one that
ends within a block or makes no sense. Its braces have greater numbers, as some have been opened before, and
nothing else is different.

If the tokens fail instead, then they fail before any of that is read.

## Contents
- `Transcript.resume` — the rest of an evaluation; `resume_append`, `resume_lockstep`.
- `Stack.pushNumbers_of_hasRoom`, `Stack.Within.outcome_pushNumbers` — numbers on the stack as inputs.
- `Session.Seam`, `Session.seam_of_run` — what the tokens leave behind.
- `Session.Seam.resume_close`, `resume_eq_rename` — a closing brace at the seam, and anything else.
- `Source.Delivers.evaluate_front` — an evaluation up to the seam and from there.
- `Continues`, `evaluate_append` — both programs.
-/

namespace TypeFour

variable {e : Elementary} {n m : Nat} {o : Options}

/-! ## The rest of an evaluation -/

/-- The rest of an evaluation, from some session on: the words that are still to come, and what comes after
them. -/
def Transcript.resume (e : Elementary) (n : Nat) (o : Options) (t : Transcript) (s : Session) : Outcome Stack :=
  (Session.run e n o t.words s).andThen fun u => some (t.conclude o u)

namespace Transcript

/-- The first words, and the rest. -/
theorem resume_append (ws : List Word) (t : Transcript) (s : Session) :
    resume e n o ⟨ws ++ t.words, t.fault⟩ s = (Session.run e n o ws s).andThen (t.resume e n o) := by
  unfold resume
  rw [Session.run_append, Outcome.andThen_assoc]
  rfl

/-- Sessions in lockstep end alike, if related procedures have related instructions. -/
theorem resume_lockstep {σ : Simulation} {s s' : Session}
    (hbody : ∀ p q, σ.procedures p q → List.Forall₂ (InstructionRelated σ.procedures) p.body q.body)
    (t : Transcript) (h : s.Lockstep σ s') :
    Outcome.Follows σ.excused σ.relates (t.resume e n o s) (t.resume e n o s') := by
  have havoids : Session.Avoids e o (fun _ => False) t.words s :=
    fun p u _ => ⟨id, fun ps _ q _ => id⟩
  have hwords := Session.run_lockstep (fun p q hpq _ => hbody p q hpq) (.refl _ o) t.words h havoids (n := n)
  exact hwords.andThen fun u u' hu => t.conclude_lockstep (.refl _ o) hu

end Transcript

/-! ## Numbers on the stack as inputs -/

theorem Stack.pushNumbers_of_hasRoom {ns : List Float} {s : Stack} (h : s.hasRoom ns.length = true) :
    Stack.pushNumbers ns s = .ok () { s with items := (ns.map .number).reverse ++ s.items } := by
  induction ns generalizing s with
  | nil => rfl
  | cons x ns ih =>
    have hroom := Stack.hasRoom_iff.mp h
    rw [List.length_cons] at hroom
    have hone : s.hasRoom 1 = true := Stack.hasRoom_iff.mpr fun m hm => by
      have := hroom m hm
      omega
    have hrest : Stack.hasRoom { s with items := .number x :: s.items } ns.length = true :=
      Stack.hasRoom_iff.mpr fun m hm => by
        have hle := hroom m hm
        show s.items.length + 1 + ns.length ≤ m
        have hsize : s.size = s.items.length := rfl
        omega
    have hpush : Stack.push (.number x) s = .ok () { s with items := .number x :: s.items } := if_pos hone
    calc Stack.pushNumbers (x :: ns) s = (Stack.push (.number x) >>= fun _ => Stack.pushNumbers ns) s := rfl
      _ = Stack.pushNumbers ns { s with items := .number x :: s.items } := Action.bind_of_ok hpush
      _ = _ := by
          rw [ih hrest, List.map_cons, List.reverse_cons, List.append_assoc, List.singleton_append]

/-- **A stack of numbers** is what the numbers come to as inputs, under the same limit. -/
theorem Stack.Within.outcome_pushNumbers {limit : Option Nat} {t : Stack} {ys : List Float} (h : t.Within limit)
    (hys : t.toList = ys.map .number) : Action.outcome (Stack.pushNumbers ys) { limit } = .ok t := by
  have hitems : t.items = (ys.map .number).reverse := by rw [← hys, Stack.toList, List.reverse_reverse]
  have hsize : t.size = ys.length := by rw [Stack.size, hitems, List.length_reverse, List.length_map]
  have hroom : Stack.hasRoom { limit } ys.length = true := Stack.hasRoom_iff.mpr fun m hm => by
    have hle := Stack.hasRoom_iff.mp h.room m (h.limit_eq.trans hm)
    show 0 + ys.length ≤ m
    omega
  obtain ⟨items, limit'⟩ := t
  obtain rfl : limit' = limit := h.limit_eq
  obtain rfl : items = (ys.map .number).reverse := hitems
  rw [Action.outcome, Stack.pushNumbers_of_hasRoom hroom, List.append_nil]

/-! ## The seam -/

/-- After tokens whose braces match, `k` of them opening ones, inside the outermost braces: nothing is left but the
stack. -/
structure Session.Seam (o : Options) (k : Nat) (s : Session) : Prop where
  stack : s.stack.Within o.maxStackDepth
  recordings : s.recordings = []
  depth : s.depth = 1
  opened : s.opened = k + 1
  one_le : 1 ≤ o.maxNestingDepth

/-- The depth goes with the tokens that the words mean. -/
theorem Session.run_depth_tokens {ws : List Word} {s u : Session} (hr : run e n o ws s = some (.ok u)) :
    u.depth = (ws.map Token.ofWordLeniently).foldl Token.depthAfter s.depth := by
  induction ws generalizing s with
  | nil =>
    cases hr
    rfl
  | cons w ws ih =>
    obtain ⟨t, ht, ⟨-, hnone⟩ | ⟨v, hv, hr⟩⟩ := run_cons_cases hr (by simp)
    · cases hnone
    rw [ih hr, accept_depth hv, List.map_cons, List.foldl_cons, Token.ofWordLeniently_of_ok ht]

theorem within_of_inputs {inputs : List Float} {stack : Stack}
    (h : Action.outcome (Stack.pushNumbers inputs) { limit := o.maxStackDepth } = .ok stack) :
    stack.Within o.maxStackDepth := by
  have hempty : Stack.Within o.maxStackDepth { limit := o.maxStackDepth } :=
    ⟨rfl, Stack.hasRoom_iff.mpr fun m _ => Nat.zero_le m⟩
  obtain ⟨_, hpush⟩ := Action.outcome_eq_ok h
  have hleft := (Composed.pushNumbers inputs).charted.within hempty
  rwa [Action.left_of_ok hpush] at hleft

/-- **What the tokens leave behind.** -/
theorem Session.seam_of_run {P : List UInt8} (hP : Matched 0 (tokensOf P)) {inputs : List Float} {stack : Stack}
    (hinputs : Action.outcome (Stack.pushNumbers inputs) { limit := o.maxStackDepth } = .ok stack) {s : Session}
    (hr : run e n o ([openByte] :: words P) { stack } = some (.ok s)) : s.Seam o (opens (tokensOf P)) := by
  have hnested := run_nested (nested_of_inputs hinputs) hr
  have htraced := run_traced (nested_of_inputs hinputs) rfl (traced_of_inputs hinputs) hr
  have htokens : ([openByte] :: words P).map Token.ofWordLeniently = .operator .openBrace :: tokensOf P := rfl
  have hdepth : s.depth = 1 := by
    obtain ⟨T, hT, -⟩ := exists_phrase_of_matched hP
    rw [run_depth_tokens hr, htokens, List.foldl_cons, ← hT, T.foldl_depthAfter_tokens]
    rfl
  refine ⟨(withinLimit e o.maxStackDepth).run (s := { stack }) (fun _ => trivial) (within_of_inputs hinputs) hr, ?_,
    hdepth, ?_, ?_⟩
  · have hlen := hnested.recordings
    rw [hdepth] at hlen
    exact List.length_eq_zero_iff.mp hlen
  · rw [htraced.opened, List.nil_append, htokens, opens_open]
  · exact hdepth ▸ hnested.depth_le

/-! ## From the seam on -/

theorem renameAll_of_related {f : Nat → Nat} {is js : List Instruction}
    (h : List.Forall₂ (InstructionRelated fun p q => q = p.rename f) is js) : js = renameAll f is := by
  induction h with
  | nil => rfl
  | cons hi _ ih =>
    rw [ih, renameAll]
    congr 1
    cases hi with
    | number x => rfl
    | boolean b => rfl
    | operator op => rfl
    | block hp =>
      cases hp
      rfl

section

variable {k : Nat} {s : Session} {t : Transcript}

/-- A closing brace, and nothing more, leaves the stack. -/
theorem Session.Seam.resume_close (h : s.Seam o k) :
    Transcript.resume e n o ⟨[[closeByte]], none⟩ s = some (.ok s.stack) := by
  obtain ⟨stack, recordings, depth, opened⟩ := s
  obtain ⟨-, rfl, rfl, -, -⟩ := h
  unfold Transcript.resume
  rw [Session.run_close]
  rfl

/-- **From the seam on** an evaluation goes on as it would begin with what is on the stack, but for the numbers of
the braces. -/
theorem Session.Seam.resume_eq_rename (h : s.Seam o k) {ys : List Float} (hys : s.stack.toList = ys.map .number) :
    t.resume e n o s = (t.resume e n o ⟨s.stack, [], 1, 1⟩).rename (· + k) := by
  have hinjective : (fun j => j + k).Injective := fun i j hij => Nat.add_right_cancel hij
  have hsame : s.stack.rename (· + k) = s.stack := by
    obtain ⟨_, hpush⟩ := Action.outcome_eq_ok (h.stack.outcome_pushNumbers hys)
    exact Stack.rename_of_pushNumbers _ hpush
  let σ := Simulation.renaming (· + k) hinjective o.maxStackDepth
  have hstart : Session.Lockstep σ ⟨s.stack, [], 1, 1⟩ s := by
    refine ⟨?_, ?_, h.depth.symm, ?_⟩
    · exact Stack.pointwise_map.mpr ⟨h.stack.limit_eq, by rw [← Stack.rename_eq, hsame]⟩
    · rw [h.recordings]
      exact .nil
    · intro j is js hrelated
      show (⟨s.opened + j, js⟩ : Procedure) = Procedure.rename (· + k) ⟨1 + j, is⟩
      rw [renameAll_of_related hrelated, h.opened, Procedure.rename]
      congr 1
      show k + 1 + j = 1 + j + k
      omega
  have hbody (p q : Procedure) (hpq : σ.procedures p q) :
      List.Forall₂ (InstructionRelated σ.procedures) p.body q.body := by
    obtain rfl : q = p.rename (· + k) := hpq
    exact renameAll_related p.body
  have hfollows := t.resume_lockstep (e := e) (n := n) (o := o) hbody hstart
  exact hfollows.eq_mapOk fun u u' hu => by rw [(Stack.pointwise_map.mp hu).2, u.rename_eq]

end

/-! ## Whole programs -/

theorem words_blanks {gap : List UInt8} (hgap : ∀ b ∈ gap, isBlank b = true) (rest : List UInt8) :
    words (gap ++ rest) = words rest := by
  induction gap with
  | nil => rfl
  | cons b gap ih =>
    obtain ⟨hb, hgap⟩ := List.forall_mem_cons.mp hgap
    rw [List.cons_append, words_blank hb, ih hgap]

/-- Blanks part the words before them from those after them. -/
theorem words_append_blanks {gap : List UInt8} (hne : gap ≠ []) (hgap : ∀ b ∈ gap, isBlank b = true)
    (front rest : List UInt8) : words (front ++ gap ++ rest) = words front ++ words rest := by
  have hparted : ∀ a ∈ front.getLast?, ∀ b ∈ (gap ++ rest).head?, sameWord a b = false := by
    intro a _ b hb
    obtain ⟨c, gap, rfl⟩ := List.exists_cons_of_ne_nil hne
    obtain rfl : c = b := Option.some.inj hb
    simp [sameWord, endsWord, hgap c List.mem_cons_self]
  rw [List.append_assoc, words_append hparted, words_blanks hgap]

section

variable {source : Source} {text rest : List UInt8} {ws : List Word} {inputs : List Float} {stack : Stack}

/-- Words that are admitted are worked through before the rest is read. -/
theorem Source.Delivers.evaluate_front (h : source.Delivers text) (hwords : words text = ws ++ words rest)
    (hwraps : ¬Window.Wraps o.bufferCapacity) (hadmitted : ∀ w ∈ ws, w.length ≤ max o.bufferCapacity 1)
    (hinputs : Action.outcome (Stack.pushNumbers inputs) { limit := o.maxStackDepth } = .ok stack) :
    evaluate e n o source inputs = (Session.run e n o ws { stack }).andThen
      ((Delivered.transcript (max o.bufferCapacity 1) ⟨rest, none⟩).resume e n o) := by
  rw [h.evaluate_eq hwraps hinputs, Delivered.transcript_of_words_append hwords hadmitted,
    Transcript.evaluate_eq_andThen]
  exact Transcript.resume_append ws _ _

end

theorem Delivered.transcript_close (capacity : Nat) (hc : 1 ≤ capacity) :
    Delivered.transcript capacity ⟨[closeByte], none⟩ = ⟨[[closeByte]], none⟩ :=
  Delivered.transcript_of_admitted rfl (List.forall_mem_singleton.mpr hc)

section

variable {source : Source} {gap Q : List UInt8} {k : Nat} {s : Session} {ys : List Float}

/-- A program that begins with the numbers which another has left at the seam. -/
theorem Session.Seam.evaluate_rest (h : s.Seam o k) (hys : s.stack.toList = ys.map .number)
    (hwraps : ¬Window.Wraps o.bufferCapacity) (hsource : source.Delivers (openByte :: (gap ++ Q)))
    (hgap : ∀ b ∈ gap, isBlank b = true) :
    evaluate e n o source ys =
      (Delivered.transcript (max o.bufferCapacity 1) ⟨Q, none⟩).resume e n o ⟨s.stack, [], 1, 1⟩ := by
  have hwords : words (openByte :: (gap ++ Q)) = [[openByte]] ++ words Q := by
    rw [words_brace rfl, words_blanks hgap]
    rfl
  have hadmitted : ∀ w ∈ [[openByte]], w.length ≤ max o.bufferCapacity 1 :=
    List.forall_mem_singleton.mpr (Nat.le_max_right _ _)
  have hopen : openBlock o { stack := s.stack } = .ok ⟨s.stack, [], 1, 1⟩ :=
    if_neg (Nat.not_le_of_lt h.one_le)
  have hrun : run e n o [[openByte]] { stack := s.stack } = some (.ok ⟨s.stack, [], 1, 1⟩) :=
    run_cons_of_ok (t := .operator .openBrace) rfl (congrArg some hopen)
  rw [hsource.evaluate_front hwords hwraps hadmitted (h.stack.outcome_pushNumbers hys), hrun]
  rfl

end

section

variable {P gap Q : List UInt8} {first whole rest : Source} {inputs : List Float}

/-- The words of a text that begins with `P`. -/
theorem words_openByte_append (hne : gap ≠ []) (hgap : ∀ b ∈ gap, isBlank b = true) (later : List UInt8) :
    words (openByte :: (P ++ gap ++ later)) = ([openByte] :: words P) ++ words later := by
  rw [words_brace rfl, words_append_blanks hne hgap, List.cons_append]

/-- With at most `n` replays under way in the first program and `m` in the others: where the first leaves numbers,
the whole goes on as the rest does with them; where it fails, the whole fails. -/
@[mk_iff]
structure Continues (e : Elementary) (o : Options) (n m : Nat) (P : List UInt8) (first whole rest : Source)
    (inputs : List Float) : Prop where
  ok : ∀ t ys, evaluate e n o first inputs = some (.ok t) → t.toList = ys.map .number →
    evaluate e m o whole inputs = (evaluate e m o rest ys).rename (· + opens (tokensOf P))
  error : ∀ f, evaluate e n o first inputs = some (.error f) → evaluate e m o whole inputs = some (.error f)

/-- The inputs find room and the words of `P` are admitted. -/
theorem continues_of_admitted {stack : Stack} (hP : Matched 0 (tokensOf P)) (hne : gap ≠ [])
    (hgap : ∀ b ∈ gap, isBlank b = true) (hfirst : first.Delivers (openByte :: (P ++ gap ++ [closeByte])))
    (hwhole : whole.Delivers (openByte :: (P ++ gap ++ Q))) (hrest : rest.Delivers (openByte :: (gap ++ Q)))
    (hwraps : ¬Window.Wraps o.bufferCapacity)
    (hinputs : Action.outcome (Stack.pushNumbers inputs) { limit := o.maxStackDepth } = .ok stack)
    (hadmitted : ∀ w ∈ words P, w.length ≤ max o.bufferCapacity 1) (hnm : n ≤ m) :
    Continues e o n m P first whole rest inputs := by
  have hfront : ∀ w ∈ [openByte] :: words P, w.length ≤ max o.bufferCapacity 1 :=
    List.forall_mem_cons.mpr ⟨Nat.le_max_right _ _, hadmitted⟩
  rw [continues_iff, hfirst.evaluate_front (words_openByte_append hne hgap [closeByte]) hwraps hfront hinputs,
    hwhole.evaluate_front (words_openByte_append hne hgap Q) hwraps hfront hinputs,
    Delivered.transcript_close _ (Nat.le_max_right _ _)]
  cases hrun : Session.run e n o ([openByte] :: words P) { stack } with
  | none => exact ⟨fun t ys h => (nomatch h), fun f h => (nomatch h)⟩
  | some r =>
    rw [Session.run_mono hnm hrun]
    cases r with
    | error f => exact ⟨fun t ys h => (nomatch h), fun g h => h⟩
    | ok s =>
      have hseam := Session.seam_of_run hP hinputs hrun
      refine ⟨fun t ys ht hys => ?_, fun f hf => ?_⟩
      · obtain rfl : s.stack = t := Except.ok.inj (Option.some.inj (hseam.resume_close.symm.trans ht))
        rw [hseam.evaluate_rest hys hwraps hrest hgap]
        exact hseam.resume_eq_rename hys
      · cases hseam.resume_close.symm.trans hf

/-- A word of `P` that is too long stops the reading, whatever comes after. -/
theorem evaluate_eq_of_long {later : List UInt8} {source : Source} (hne : gap ≠ [])
    (hgap : ∀ b ∈ gap, isBlank b = true) (hsource : source.Delivers (openByte :: (P ++ gap ++ later)))
    (hwraps : ¬Window.Wraps o.bufferCapacity)
    (hlong : ¬∀ w ∈ words P, w.length ≤ max o.bufferCapacity 1) {stack : Stack}
    (hinputs : Action.outcome (Stack.pushNumbers inputs) { limit := o.maxStackDepth } = .ok stack) :
    evaluate e n o source inputs = Transcript.evaluate e n o
      ⟨(words (openByte :: P)).takeWhile (·.length ≤ max o.bufferCapacity 1), some .limitCheck⟩ stack := by
  have hwords : words (openByte :: (P ++ gap ++ later)) = words (openByte :: P) ++ words later := by
    rw [words_openByte_append hne hgap, words_brace rfl]
  rw [hsource.evaluate_eq hwraps hinputs, Delivered.transcript_of_long_front hwords]
  rw [words_brace rfl]
  exact fun hall => hlong (List.forall_mem_cons.mp hall).2

/-- A word of `P` is too long. -/
theorem continues_of_long (hne : gap ≠ []) (hgap : ∀ b ∈ gap, isBlank b = true)
    (hfirst : first.Delivers (openByte :: (P ++ gap ++ [closeByte])))
    (hwhole : whole.Delivers (openByte :: (P ++ gap ++ Q))) (hwraps : ¬Window.Wraps o.bufferCapacity)
    (hlong : ¬∀ w ∈ words P, w.length ≤ max o.bufferCapacity 1) {stack : Stack}
    (hinputs : Action.outcome (Stack.pushNumbers inputs) { limit := o.maxStackDepth } = .ok stack)
    (hnm : n ≤ m) :
    Continues e o n m P first whole rest inputs := by
  rw [continues_iff, evaluate_eq_of_long hne hgap hfirst hwraps hlong hinputs]
  refine ⟨fun t ys ht => ?_, fun f hf => ?_⟩
  · rw [Transcript.evaluate_eq_andThen] at ht
    obtain ⟨s, -, hend⟩ := Outcome.andThen_eq_ok.mp ht
    cases hend
  · refine evaluate_mono hnm ?_
    rw [evaluate_eq_of_long hne hgap hwhole hwraps hlong hinputs, hf]

/-- Nothing is read. -/
theorem continues_of_unread {f : Fault} (h : Unread o inputs f) :
    Continues e o n m P first whole rest inputs := by
  rw [continues_iff, h.evaluate_eq e n o first rfl rfl, h.evaluate_eq e m o whole rfl rfl]
  exact ⟨fun t ys ht => (nomatch ht), fun g hg => hg⟩

end

/-- **One program after another.** Let `P` be tokens whose braces match, followed by blanks, and `Q` any bytes.
If `{ P }` leaves nothing but numbers, then `{ P Q` is evaluated as `{ Q` is with these numbers as inputs, to the
same fault or to the same stack, but for the numbers of the braces of `Q`. If `{ P }` fails, then `{ P Q` fails
with the same fault. -/
theorem evaluate_append (e : Elementary) (n : Nat) (o : Options) (P gap Q : List UInt8)
    (hP : Matched 0 (tokensOf P)) (hne : gap ≠ []) (hgap : ∀ b ∈ gap, isBlank b = true)
    (first whole rest : Source) (hfirst : first.Delivers (openByte :: (P ++ gap ++ [closeByte])))
    (hwhole : whole.Delivers (openByte :: (P ++ gap ++ Q))) (hrest : rest.Delivers (openByte :: (gap ++ Q)))
    (inputs : List Float) :
    (∀ t ys, evaluate e n o first inputs = some (.ok t) → t.toList = ys.map .number → ∀ m, n ≤ m →
      evaluate e m o whole inputs = (evaluate e m o rest ys).rename (· + opens (tokensOf P))) ∧
    ∀ f, evaluate e n o first inputs = some (.error f) → ∀ m, n ≤ m →
      evaluate e m o whole inputs = some (.error f) := by
  have hboth (m : Nat) (hnm : n ≤ m) : Continues e o n m P first whole rest inputs := by
    rcases unread_or_read o inputs with ⟨f, hunread⟩ | ⟨hwraps, stack, hinputs⟩
    · exact continues_of_unread hunread
    · by_cases hadmitted : ∀ w ∈ words P, w.length ≤ max o.bufferCapacity 1
      · exact continues_of_admitted hP hne hgap hfirst hwhole hrest hwraps hinputs hadmitted hnm
      · exact continues_of_long hne hgap hfirst hwhole hwraps hadmitted hinputs hnm
  exact ⟨fun t ys ht hys m hnm => (hboth m hnm).ok t ys ht hys, fun f hf m hnm => (hboth m hnm).error f hf⟩

/-! ### A block before the seam, and a block after it -/

/-- The bytes of `{}pop dup`, which needs an input. -/
def popThenDup : List UInt8 :=
  [openByte, closeByte, 0x70, 0x6F, 0x70, 0x20, 0x64, 0x75, 0x70]

/-- The bytes of `{`, with which the outermost braces are not closed. -/
def openedOnly : List UInt8 :=
  [openByte]

/-- The input `1`. -/
def oneInput : Float :=
  .ofBits 0x3FF0000000000000

/-- After `{}pop dup` there are two numbers on the stack, and the next block has the number `2` and not `1`. With
no input `dup` fails. -/
theorem evaluate_append_popThenDup :
    Matched 0 (tokensOf popThenDup) ∧
      evaluate .machine 0 {} (.ofBytes (openByte :: (popThenDup ++ [0x20] ++ [closeByte]))) [oneInput] =
        some (.ok ⟨[.number oneInput, .number oneInput], some 100⟩) ∧
      evaluate .machine 5 {} (.ofBytes (openByte :: (popThenDup ++ [0x20] ++ openedOnly))) [oneInput] =
        some (.ok ⟨[.procedure ⟨2, []⟩, .number oneInput, .number oneInput], some 100⟩) ∧
      evaluate .machine 0 {} (.ofBytes (openByte :: (popThenDup ++ [0x20] ++ [closeByte]))) [] =
        some (.error .stackUnderflow) ∧
      evaluate .machine 5 {} (.ofBytes (openByte :: (popThenDup ++ [0x20] ++ openedOnly))) [] =
        some (.error .stackUnderflow) := by
  have hmatched : Matched 0 (tokensOf popThenDup) := by
    have htokens : tokensOf popThenDup =
        [.operator .openBrace, .operator .closeBrace, .operator .pop, .operator .dup] := rfl
    rw [htokens]
    simp [Matched, Token.depthAfter]
  have hleft : evaluate .machine 0 {} (.ofBytes (openByte :: (popThenDup ++ [0x20] ++ [closeByte]))) [oneInput] =
      some (.ok ⟨[.number oneInput, .number oneInput], some 100⟩) :=
    (evaluate_of_inputs (Source.ofBytes_delivers _).most (by decide) rfl).trans (by rfl)
  have hfails : evaluate .machine 0 {} (.ofBytes (openByte :: (popThenDup ++ [0x20] ++ [closeByte]))) [] =
      some (.error .stackUnderflow) :=
    (evaluate_of_inputs (Source.ofBytes_delivers _).most (by decide) rfl).trans (by rfl)
  have hrest : evaluate .machine 5 {} (.ofBytes (openByte :: ([0x20] ++ openedOnly))) [oneInput, oneInput] =
      some (.ok ⟨[.procedure ⟨1, []⟩, .number oneInput, .number oneInput], some 100⟩) :=
    (evaluate_of_inputs (Source.ofBytes_delivers _).most (by decide) rfl).trans (by rfl)
  have hblank : ∀ b ∈ [(0x20 : UInt8)], isBlank b = true := List.forall_mem_singleton.mpr rfl
  have happend := evaluate_append .machine 0 {} popThenDup [0x20] openedOnly hmatched (List.cons_ne_nil _ _) hblank
    _ _ _ (Source.ofBytes_delivers _) (Source.ofBytes_delivers _) (Source.ofBytes_delivers _)
  refine ⟨hmatched, hleft, ?_, hfails, (happend []).2 _ hfails 5 (by decide)⟩
  rw [(happend [oneInput]).1 _ [oneInput, oneInput] hleft rfl 5 (by decide), hrest]
  rfl

end TypeFour
