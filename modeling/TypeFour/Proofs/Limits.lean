import TypeFour.Proofs.EverySource
import TypeFour.Proofs.Locality
import TypeFour.Proofs.Lockstep
import TypeFour.Proofs.Truncation

/-!
# `TypeFour.Proofs.Limits` — limits show only in their own faults

The operand stack, the nesting of braces and the length of words each have a limit. None of them changes what
an evaluation does, up to the point where it stops it: under higher limits the same words come to the same
values, and whatever else stops the evaluation stops it at the same place.

Shape. The two runs go in lockstep, on stacks with the same values (`RaisedTo`), until the one under the lower
limits meets one of them; after that nothing is asked of the other. Operators and replays keep this as they
keep every `Simulation`, sessions go on as they do in every `Session.Lockstep`, and the words that are read
under the lower limit begin those that are read under the higher one.

## Contents
- `LimitLE`, `Options.Raised` — limits and options that are no lower.
- `Stack.RaisedTo`, `Simulation.raised` — operators and replays.
- `Options.Raised.alike`, `Session.run_raised` — the session under both.
- `Delivered.transcript_raised` — the words that are read.
- `evaluate_raised` — whole programs; `not_evaluate_raised_largest` — a buffer without room.
-/

namespace TypeFour

/-! ## Higher limits -/

/-- The second limit is no lower than the first. No limit at all is above every number. -/
def LimitLE : Option Nat → Option Nat → Prop
  | _, none => True
  | none, some _ => False
  | some m, some m' => m ≤ m'

/-- The same policies, and limits that are no lower. -/
structure Options.Raised (o o' : Options) : Prop where
  unknownTokens : o'.unknownTokens = o.unknownTokens
  truncatedInput : o'.truncatedInput = o.truncatedInput
  maxStackDepth : LimitLE o.maxStackDepth o'.maxStackDepth
  maxNestingDepth : o.maxNestingDepth ≤ o'.maxNestingDepth
  bufferCapacity : o.bufferCapacity ≤ o'.bufferCapacity

/-- A fault that a limit raises. -/
def Fault.IsLimit (f : Fault) : Prop :=
  f = .stackOverflow ∨ f = .limitCheck

/-! ## Actions on the stack -/

namespace Stack

/-- The same values under a limit that is no lower. -/
structure RaisedTo (limit : Option Nat) (s t : Stack) : Prop where
  le : LimitLE s.limit limit
  eq : t = { s with limit }

variable {limit : Option Nat}

theorem hasRoom_raised {s : Stack} (h : LimitLE s.limit limit) {n : Nat} (hroom : s.hasRoom n = true) :
    ({ s with limit } : Stack).hasRoom n = true := by
  obtain ⟨items, lower⟩ := s
  match lower, limit with
  | _, none => rfl
  | some m, some m' =>
    have hsize : items.length + n ≤ m := of_decide_eq_true hroom
    exact decide_eq_true (Nat.le_trans hsize h)

/-- Other values on both stacks. -/
theorem RaisedTo.withItems {s : Stack} (h : LimitLE s.limit limit) (vs : List Value) :
    RaisedTo limit { s with items := vs } { items := vs, limit } :=
  ⟨h, rfl⟩

end Stack

/-- The action comes to the same under a higher limit, unless it meets the lower one. -/
abbrev KeepsRaised {α : Type} (limit : Option Nat) (m : Action α) : Prop :=
  Simulates (Stack.RaisedTo limit) Fault.IsLimit Eq m m

namespace KeepsRaised

variable {limit : Option Nat}

theorem push (v : Value) : KeepsRaised limit (Stack.push v) := by
  rintro s _ ⟨hle, rfl⟩
  unfold Stack.push
  by_cases hr : s.hasRoom 1 = true
  · rw [if_pos hr, if_pos (Stack.hasRoom_raised hle hr)]
    exact .ok rfl (.withItems hle _)
  · rw [if_neg hr]
    exact .excused (.inl rfl)

theorem pop : KeepsRaised limit Stack.pop := by
  rintro ⟨items, lower⟩ _ ⟨hle, rfl⟩
  cases items with
  | nil => exact .error ⟨hle, rfl⟩
  | cons v vs => exact .ok rfl ⟨hle, rfl⟩

theorem peek (n : Nat) : KeepsRaised limit (Stack.peek n) := by
  rintro s _ ⟨hle, rfl⟩
  unfold Stack.peek
  cases s.items[n]? with
  | none => exact .error ⟨hle, rfl⟩
  | some v => exact .ok rfl ⟨hle, rfl⟩

theorem exch : KeepsRaised limit Stack.exch := by
  rintro ⟨items, lower⟩ _ ⟨hle, rfl⟩
  match items with
  | [] | [_] => exact .error ⟨hle, rfl⟩
  | a :: b :: rest => exact .ok rfl ⟨hle, rfl⟩

theorem copy (n : Nat) : KeepsRaised limit (Stack.copy n) := by
  rintro s _ ⟨hle, rfl⟩
  have hsize : ({ s with limit } : Stack).size = s.size := rfl
  unfold Stack.copy
  rw [hsize]
  by_cases hn : s.size < n
  · rw [if_pos hn, if_pos hn]
    exact .error ⟨hle, rfl⟩
  rw [if_neg hn, if_neg hn]
  by_cases hr : s.hasRoom n = true
  · rw [if_pos hr, if_pos (Stack.hasRoom_raised hle hr)]
    exact .ok rfl (.withItems hle _)
  · rw [if_neg hr]
    exact .excused (.inl rfl)

theorem roll (n : Nat) (j : Int) : KeepsRaised limit (Stack.roll n j) := by
  rintro s _ ⟨hle, rfl⟩
  have hsize : ({ s with limit } : Stack).size = s.size := rfl
  unfold Stack.roll
  rw [hsize]
  by_cases hn : s.size < n
  · rw [if_pos hn, if_pos hn]
    exact .error ⟨hle, rfl⟩
  · rw [if_neg hn, if_neg hn]
    exact .ok rfl (.withItems hle _)

end KeepsRaised

namespace Simulation

theorem origin_iff_of_eq {p p' q q' : Procedure} (hp : p = p') (hq : q = q') :
    p.origin = q.origin ↔ p'.origin = q'.origin := by
  rw [hp, hq]

/-- The same values under a higher limit, as a relation that the primitive actions keep. -/
def raised (limit : Option Nat) : Simulation where
  relates := Stack.RaisedTo limit
  procedures := Eq
  excused := Fault.IsLimit
  origin_iff := origin_iff_of_eq
  push := by
    intro v w hv
    obtain rfl := related_eq_iff.mp hv
    exact KeepsRaised.push v
  pop := KeepsRaised.pop.imp fun _ _ => related_eq_iff.mpr
  peek n := (KeepsRaised.peek n).imp fun _ _ => related_eq_iff.mpr
  exch := KeepsRaised.exch
  copy := KeepsRaised.copy
  roll := KeepsRaised.roll

theorem raised_body (p q : Procedure) (h : p = q) : List.Forall₂ (InstructionRelated Eq) p.body q.body := by
  rw [h]
  exact List.forall₂_same.mpr fun _ _ => .rfl

/-- A block is the same when its number and its instructions are. -/
theorem raised_paired (limit : Option Nat) (k : Nat) : (raised limit).Paired k k := by
  intro is is' h
  have heq : List.Forall₂ Eq is is' := h.imp fun _ _ => InstructionRelated.eq
  rw [List.forall₂_eq_eq_eq] at heq
  rw [heq]
  rfl

end Simulation

/-- Where a limit is no lower, only its own fault can be missing. -/
theorem Options.Raised.alike {o o' : Options} (ho : o.Raised o') : o.Alike Fault.IsLimit o' :=
  ⟨ho.unknownTokens, ho.truncatedInput, .inr ⟨.inr rfl, ho.maxNestingDepth⟩⟩

/-- **All words**, from stacks with the same values. -/
theorem Session.run_raised {e : Elementary} {n : Nat} {o o' : Options} (ho : o.Raised o') (ws : List Word)
    {limit : Option Nat} {stack stack' : Stack} (h : stack.RaisedTo limit stack') :
    Outcome.Follows Fault.IsLimit (Session.Lockstep (Simulation.raised limit)) (run e n o ws { stack })
      (run e n o' ws { stack := stack' }) := by
  have hstart : Session.Lockstep (Simulation.raised limit) { stack } { stack := stack' } :=
    ⟨h, .nil, rfl, fun _ => Simulation.raised_paired limit _⟩
  -- no procedure is banned
  have havoids : Session.Avoids e o (fun _ => False) ws { stack } :=
    fun _ _ _ => ⟨id, fun _ _ _ _ => id⟩
  exact run_lockstep (fun p q hpq _ => Simulation.raised_body p q hpq) ho.alike ws hstart havoids

/-! ## The words that are read -/

section

variable {c c' : Nat} {ws : List Word}

theorem takeWhile_admitted (h : ∀ w ∈ ws, w.length ≤ c) : ws.takeWhile (·.length ≤ c) = ws :=
  List.takeWhile_eq_self_iff.mpr fun w hw => decide_eq_true (h w hw)

theorem takeWhile_raised (hc : c ≤ c') (ws : List Word) :
    ws.takeWhile (·.length ≤ c) <+: ws.takeWhile (·.length ≤ c') := by
  have hwithin : ws.takeWhile (·.length ≤ c) =
      (ws.takeWhile (·.length ≤ c')).takeWhile (·.length ≤ c) := by
    rw [List.takeWhile_takeWhile]
    congr 1
    funext w
    have hle : w.length ≤ c → w.length ≤ c' := fun h => Nat.le_trans h hc
    grind
  rw [hwithin]
  exact List.takeWhile_prefix _

namespace Delivered

/-- Where no word is too long, all are read but the one that a failure touches, which is the last. -/
theorem dropLast_words_isPrefix {d : Delivered} (h : ∀ w ∈ words d.bytes, w.length ≤ c) :
    (words d.bytes).dropLast <+: (d.transcript c).words := by
  simp only [transcript, takeWhile_admitted h, lt_self_iff_false, if_false]
  cases d.failure with
  | none => exact List.dropLast_prefix _
  | some reason =>
    by_cases hin : endsInWord d.bytes = true
    · simp only [if_pos hin, List.prefix_rfl]
    · simp only [if_neg hin, List.dropLast_prefix]

/-- **Longer words admitted.** Either no word is too long for the lower limit, and the reading does not change;
or one is, and the words before it begin what is read under the higher limit. -/
theorem transcript_raised (hc : c ≤ c') (d : Delivered) :
    d.transcript c = d.transcript c' ∨
      ∃ ws rest, d.transcript c = ⟨ws, some .limitCheck⟩ ∧ (d.transcript c').words = ws ++ rest := by
  by_cases hadm : ∀ w ∈ words d.bytes, w.length ≤ c
  · have hadm' : ∀ w ∈ words d.bytes, w.length ≤ c' := fun w hw => Nat.le_trans (hadm w hw) hc
    refine .inl ?_
    simp only [transcript, takeWhile_admitted hadm, takeWhile_admitted hadm']
  · refine .inr ?_
    have hbegins : (words d.bytes).takeWhile (·.length ≤ c) <+: (d.transcript c').words := by
      by_cases hadm' : ∀ w ∈ words d.bytes, w.length ≤ c'
      · -- not all words come before the one that is too long
        have hshort : ((words d.bytes).takeWhile (·.length ≤ c)).length ≤ (words d.bytes).dropLast.length := by
          rw [List.length_dropLast]
          exact Nat.le_pred_of_lt (takeWhile_length_lt hadm)
        exact (List.prefix_of_prefix_length_le (List.takeWhile_prefix _) (List.dropLast_prefix _) hshort).trans
          (dropLast_words_isPrefix hadm')
      · rw [transcript_of_long hadm']
        exact takeWhile_raised hc _
    obtain ⟨rest, hrest⟩ := hbegins
    exact ⟨_, rest, transcript_of_long hadm, hrest.symm⟩

end Delivered

end

/-! ## Whole programs -/

variable {e : Elementary} {n : Nat} {o o' : Options}

/-- The two runs side by side. -/
theorem Delivered.evaluate_follows (ho : o.Raised o') (d : Delivered) (inputs : List Float) :
    Outcome.Follows Fault.IsLimit (Stack.RaisedTo o'.maxStackDepth) (d.evaluate e n o inputs)
      (d.evaluate e n o' inputs) := by
  have hstart : Stack.RaisedTo o'.maxStackDepth { limit := o.maxStackDepth }
      { limit := o'.maxStackDepth } := ⟨ho.maxStackDepth, rfl⟩
  have hinputs := (Simulation.raised o'.maxStackDepth).pushNumbers inputs _ _ hstart
  rw [evaluate_eq_andThen, evaluate_eq_andThen]
  refine (Outcome.Follows.of_agree hinputs).andThen fun stack stack' hstack => ?_
  have hcapacity : max o.bufferCapacity 1 ≤ max o'.bufferCapacity 1 := by
    have := ho.bufferCapacity
    omega
  rcases d.transcript_raised hcapacity with hsame | ⟨ws, rest, hws, hrest⟩
  · rw [hsame, Transcript.evaluate_eq_andThen, Transcript.evaluate_eq_andThen]
    exact (Session.run_raised ho _ hstack).andThen fun _ _ => Transcript.conclude_lockstep ho.alike _
  · -- what comes after the words that both read is not asked for
    rw [hws, Transcript.evaluate_eq_andThen, Transcript.evaluate_eq_andThen, hrest, Session.run_append,
      Outcome.andThen_assoc]
    exact (Session.run_raised ho ws hstack).andThen fun _ _ _ => .excused (.inr rfl)

/-- **Limits act through their own faults only.** Under limits that are no lower, of which memory can hold the
buffer, an evaluation that ends with a stack ends with the same values, and one that ends with a fault which no
limit raises ends with the same fault. -/
theorem evaluate_raised (e : Elementary) (n : Nat) (o o' : Options) (ho : o.Raised o')
    (hbuffer : Window.Fits o'.bufferCapacity) (source : Source) (inputs : List Float) :
    (∀ s, evaluate e n o source inputs = some (.ok s) →
      ∃ s', evaluate e n o' source inputs = some (.ok s') ∧ s'.items = s.items) ∧
    ∀ f, evaluate e n o source inputs = some (.error f) → f ≠ .stackOverflow → f ≠ .limitCheck →
      evaluate e n o' source inputs = some (.error f) := by
  obtain ⟨d, hd⟩ := exists_evaluate_delivered source
  have hfollows := d.evaluate_follows (e := e) (n := n) ho inputs
  rw [← hd _ _ _ _ (hbuffer.of_le ho.bufferCapacity).not_wraps, ← hd _ _ _ _ hbuffer.not_wraps] at hfollows
  constructor
  · intro s hs
    obtain ⟨s', hs', hraised⟩ := hfollows.exists_ok hs
    exact ⟨s', hs', by rw [hraised.eq]⟩
  · intro f hf hoverflow hlimit
    exact hfollows.eq_error hf (not_or.mpr ⟨hoverflow, hlimit⟩)

/-! ### Limits that are just high enough -/

/-- The text `{true{exch}if}`. -/
def exchangeNothing : List UInt8 :=
  [0x7B, 0x74, 0x72, 0x75, 0x65, 0x7B, 0x65, 0x78, 0x63, 0x68, 0x7D, 0x69, 0x66, 0x7D]

/-- The text `{true{true}if}`. -/
def pushTwice : List UInt8 :=
  [0x7B, 0x74, 0x72, 0x75, 0x65, 0x7B, 0x74, 0x72, 0x75, 0x65, 0x7D, 0x69, 0x66, 0x7D]

/-- Limits that both texts just keep to. -/
def justHighEnough : Options where
  maxStackDepth := some 2
  maxNestingDepth := 2
  bufferCapacity := 4

/-- Under higher limits the texts end as they do under these, with a value and with a fault. -/
theorem evaluate_raised_justHighEnough :
    justHighEnough.Raised { maxStackDepth := none } ∧ Window.Fits 256 ∧
      (∃ s, evaluate .machine 1 { maxStackDepth := none } (.ofBytes pushTwice) [] = some (.ok s) ∧
        s.items = [.boolean true]) ∧
      evaluate .machine 1 { maxStackDepth := none } (.ofBytes exchangeNothing) [] =
        some (.error .stackUnderflow) := by
  have ho : justHighEnough.Raised { maxStackDepth := none } :=
    ⟨rfl, rfl, trivial, by decide, by decide⟩
  have hpush : evaluate .machine 1 justHighEnough (.ofBytes pushTwice) [] =
      some (.ok ⟨[.boolean true], some 2⟩) :=
    (evaluate_of_inputs (by simp [Source.ofBytes]) (by decide) rfl).trans (by rfl)
  have hexch : evaluate .machine 1 justHighEnough (.ofBytes exchangeNothing) [] =
      some (.error .stackUnderflow) :=
    (evaluate_of_inputs (by simp [Source.ofBytes]) (by decide) rfl).trans (by rfl)
  exact ⟨ho, by decide, (evaluate_raised .machine 1 _ _ ho (by decide) _ []).1 _ hpush,
    (evaluate_raised .machine 1 _ _ ho (by decide) _ []).2 _ hexch (by decide) (by decide)⟩

/-- The text `{true}` leaves a value, and no longer does where the capacity of the buffer is raised to the largest
machine word. -/
theorem not_evaluate_raised_largest :
    ¬∀ (e : Elementary) (n : Nat) (o o' : Options), o.Raised o' → ∀ (source : Source) (inputs : List Float) s,
      evaluate e n o source inputs = some (.ok s) →
        ∃ s', evaluate e n o' source inputs = some (.ok s') ∧ s'.items = s.items := by
  intro h
  have ho : Options.Raised {} largestBuffer := ⟨rfl, rfl, Nat.le_refl _, by decide, by decide⟩
  have htrue : evaluate .machine 0 {} (.ofBytes [0x7B, 0x74, 0x72, 0x75, 0x65, 0x7D]) [] =
      some (.ok ⟨[.boolean true], some 100⟩) :=
    (evaluate_of_inputs (by simp [Source.ofBytes]) (by decide) rfl).trans (by rfl)
  obtain ⟨s', hs', -⟩ := h .machine 0 _ _ ho _ [] _ htrue
  rw [evaluate_largestBuffer] at hs'
  cases hs'

end TypeFour
