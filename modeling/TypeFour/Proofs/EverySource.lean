import TypeFour.Proofs.Reading

/-!
# `TypeFour.Proofs.EverySource` — reads that may bring nothing

A source whose reads are capped at zero bytes brings none, however much its script holds; the reader takes
the first such read for the end of the data. So this source, too, delivers something, as far as the reader
can tell: no bytes, and then the end or a failure. With it, whatever is shown of what sources deliver holds
of every source.

## Contents
- `Source.await_of_most_zero` — waiting for such a source.
- `Reader.transcript_of_peek_none` — a reader that meets the end of the data at once.
- `exists_delivered`, `exists_evaluate_delivered` — every source delivers something.
- `words_transcript_ofSource_isPrefix` — no word is read but those of the text.
- `Source.Delivers.evaluate_delivered` — a source that delivers a text.
-/

namespace TypeFour

/-! ## Waiting for nothing -/

namespace Source

theorem await_of_received {room : Nat} {s s' : Source} {bytes : List UInt8}
    (h : s.read room = (.received bytes, s')) : s.await room = (.ok bytes, s') := by
  rw [await]
  split <;> simp_all

theorem await_of_failed {room : Nat} {s s' : Source} {reason : String}
    (h : s.read room = (.failed reason, s')) : s.await room = (.error reason, s') := by
  rw [await]
  split <;> simp_all

theorem await_of_interrupted {room : Nat} {s s' : Source} (h : s.read room = (.interrupted, s')) :
    s.await room = s'.await room := by
  rw [await]
  split <;> simp_all

/-- A read of at most no bytes brings none. -/
theorem readScript_zero {script rest : List Delivery} {bytes : List UInt8}
    (h : readScript 0 script = (.received bytes, rest)) : bytes = [] := by
  induction script with
  | nil =>
    cases h
    rfl
  | cons d rest ih =>
    match d with
    | .chunk [] => exact ih h
    | .chunk (b :: bs) =>
      cases h
      rfl
    | .interruption => cases h
    | .endOfData =>
      cases h
      rfl
    | .failure reason => cases h

/-- What waiting comes to when no read may bring a byte: the end of the data, or a failure, whatever the
room. -/
theorem await_of_most_zero {s : Source} (h : s.most = some 0) :
    (∀ room, ∃ s', s.await room = (.ok [], s')) ∨
      ∃ reason, ∀ room, ∃ s', s.await room = (.error reason, s') := by
  -- on the script, which every interruption makes shorter
  induction hlen : s.script.length using Nat.strong_induction_on generalizing s with
  | _ l ih =>
  subst hlen
  have hread (room : Nat) : s.read room =
      ((readScript 0 s.script).1, { s with script := (readScript 0 s.script).2 }) := by
    simp only [read, h, Nat.min_zero]
  rcases hr : readScript 0 s.script with ⟨arrival, rest⟩
  cases arrival with
  | received bytes =>
    obtain rfl := readScript_zero hr
    refine .inl fun room => ⟨{ s with script := rest }, await_of_received ?_⟩
    rw [hread room, hr]
  | failed reason =>
    refine .inr ⟨reason, fun room => ⟨{ s with script := rest }, await_of_failed ?_⟩⟩
    rw [hread room, hr]
  | interrupted =>
    have hskip (room : Nat) : s.await room = ({ s with script := rest } : Source).await room := by
      apply await_of_interrupted
      rw [hread room, hr]
    simp only [hskip]
    exact ih _ (readScript_length_lt hr) h rfl

end Source

/-! ## Seeing nothing -/

namespace Reader

variable {r : Reader}

/-- A reader that meets the end of the data before any byte. -/
theorem transcript_of_peek_none {r' : Reader} (h : r.peek = .ok (none, r')) :
    r.transcript = ⟨[], none⟩ := by
  have hskip : r.skipBlanks = .ok (none, r') := by
    rw [skipBlanks]
    split <;> simp_all
  have hnext : r.nextWord? = .ok none := by
    rw [nextWord?, hskip]
  rw [transcript, transcriptAfter]
  split <;> simp_all

variable {capacity : Nat} {source s' : Source}

/-- The first refill asks for as many bytes as the buffer holds. -/
theorem refill_ofSource (hwraps : ¬Window.Wraps capacity) : (ofSource capacity source).refill =
    match source.await (max capacity 1 + 1) with
    | (.error reason, _) => .error (.unreadable reason)
    | (.ok [], s') => .ok ⟨(Window.ofCapacity capacity).compact.finish, s'⟩
    | (.ok bytes, s') => .ok ⟨(Window.ofCapacity capacity).compact.receive bytes, s'⟩ := by
  have hroom : (Window.ofCapacity capacity).compact.room = max capacity 1 + 1 :=
    Window.space_ofCapacity hwraps
  have hne : (Window.ofCapacity capacity).compact.room ≠ 0 := by
    rw [hroom]
    exact Nat.succ_ne_zero _
  rw [← hroom]
  exact if_neg hne

/-- The first look at a source that brings nothing. -/
theorem peek_ofSource_of_ended (hwraps : ¬Window.Wraps capacity)
    (h : source.await (max capacity 1 + 1) = (.ok [], s')) :
    ∃ r, (ofSource capacity source).peek = .ok (none, r) := by
  refine ⟨⟨(Window.ofCapacity capacity).compact.finish, s'⟩, ?_⟩
  show (ofSource capacity source).refill.map _ = _
  rw [refill_ofSource hwraps, h]
  rfl

theorem peek_ofSource_of_failed (hwraps : ¬Window.Wraps capacity) {reason : String}
    (h : source.await (max capacity 1 + 1) = (.error reason, s')) :
    (ofSource capacity source).peek = .error (.unreadable reason) := by
  show (ofSource capacity source).refill.map _ = _
  rw [refill_ofSource hwraps, h]
  rfl

end Reader

/-! ## All sources -/

/-- **Every source delivers something**, as far as the reader can tell, also one whose reads may bring
nothing: then it is as if there were no bytes. The buffer has to have room for some. -/
theorem exists_delivered (source : Source) :
    ∃ d : Delivered, (d = source.delivered ∨ d.bytes = []) ∧ ∀ capacity, ¬Window.Wraps capacity →
      (Reader.ofSource capacity source).transcript = d.transcript (max capacity 1) := by
  by_cases hmost : source.most = some 0
  · rcases source.await_of_most_zero hmost with hawait | ⟨reason, hawait⟩
    · refine ⟨⟨[], none⟩, .inr rfl, fun capacity hwraps => ?_⟩
      obtain ⟨s', hs'⟩ := hawait (max capacity 1 + 1)
      obtain ⟨r, hr⟩ := Reader.peek_ofSource_of_ended hwraps hs'
      rw [Reader.transcript_of_peek_none hr, Delivered.transcript_nil]
      rfl
    · refine ⟨⟨[], some reason⟩, .inr rfl, fun capacity hwraps => ?_⟩
      obtain ⟨s', hs'⟩ := hawait (max capacity 1 + 1)
      rw [Reader.transcript_of_peek_error (Reader.peek_ofSource_of_failed hwraps hs'), Delivered.transcript_nil]
      rfl
  · exact ⟨source.delivered, .inl rfl, fun _ => transcript_ofSource hmost⟩

/-- The words that are read begin those of what is delivered, whatever the buffer. -/
theorem words_transcript_ofSource_isPrefix (capacity : Nat) (source : Source) :
    (Reader.ofSource capacity source).transcript.words <+: words source.delivered.bytes := by
  by_cases hwraps : Window.Wraps capacity
  · rw [transcript_ofSource_of_wraps hwraps]
    exact List.nil_prefix
  · obtain ⟨d, hbytes, hd⟩ := exists_delivered source
    rw [hd capacity hwraps]
    have hread := d.words_transcript_isPrefix (max capacity 1)
    rcases hbytes with rfl | hnil
    · exact hread
    · rw [hnil] at hread
      rw [List.prefix_nil.mp hread]
      exact List.nil_prefix

/-- Evaluating a source is evaluating what it delivers, unless there is no room for any byte. -/
theorem exists_evaluate_delivered (source : Source) :
    ∃ d : Delivered, ∀ (e : Elementary) (n : Nat) (o : Options) (inputs : List Float),
      ¬Window.Wraps o.bufferCapacity → evaluate e n o source inputs = d.evaluate e n o inputs := by
  obtain ⟨d, -, hd⟩ := exists_delivered source
  refine ⟨d, fun e n o inputs hwraps => ?_⟩
  rw [evaluate, hd _ hwraps]
  rfl

/-- Evaluating a source that delivers a text is evaluating the text. -/
theorem Source.Delivers.evaluate_delivered {source : Source} {text : List UInt8}
    (h : source.Delivers text) (e : Elementary) (n : Nat) {o : Options}
    (hwraps : ¬Window.Wraps o.bufferCapacity) (inputs : List Float) :
    evaluate e n o source inputs = Delivered.evaluate e n o ⟨text, none⟩ inputs := by
  rw [evaluate, transcript_ofSource h.most hwraps, h.delivered]
  rfl

end TypeFour
