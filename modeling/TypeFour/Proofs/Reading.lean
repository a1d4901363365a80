import TypeFour.Proofs.Delivered

/-!
# `TypeFour.Proofs.Reading` — the window does not show

The reader looks at its source through a window that is refilled again and again, by reads of any size. This
file shows that nothing of it can be seen from outside: the words that come out, and the fault that stops
the reading, are those of `Delivered.transcript`, which looks at all bytes at once.

Shape. A reader stands for a *view*: the bytes of the word in progress, and what is still to come, partly in
the window and partly in the source. `peek` may shift and refill the window but keeps the view
(`peek_spec`); each larger step is described by what it leaves of the transcript of the view.

One capacity shows all the same. For words as long as the largest machine word the length of the buffer wraps
round, and a window without room lets no byte be seen (`transcript_ofSource_of_wraps`).

## Contents
- `readScript_spec`, `await_spec` — one read, and one wait, against what the script delivers.
- `Reader.Sound`, `Reader.taken`, `Reader.upcoming` — the invariant and the view.
- `peek_spec`, `finishWord_spec`, `skipBlanks_spec`, `nextWord?_spec` — the steps of the reader.
- `transcript_ofSource` — the whole reading; `transcript_ofSource_of_wraps`, `evaluate_of_wraps` — a buffer
  without room.
- `Unread`, `unread_or_read` — evaluations in which nothing is read.
- `evaluate_of_inputs`, `evaluate_eq_delivered` — the whole evaluation; `largestBuffer` — where it fails.
-/

namespace TypeFour

/-- Some bytes before all others. -/
def Delivered.prepend (bytes : List UInt8) (d : Delivered) : Delivered :=
  { d with bytes := bytes ++ d.bytes }

theorem Delivered.prepend_nil (d : Delivered) : d.prepend [] = d := rfl

/-! ## Waiting for a source -/

namespace Source

/-- **One read.** It brings the next bytes of what the script delivers, or nothing at its end. -/
theorem readScript_spec {n : Nat} (hn : n ≠ 0) (script : List Delivery) :
    match readScript n script with
    | (.received [], _) => Delivered.ofScript script = ⟨[], none⟩
    | (.received (b :: bs), rest) => (b :: bs).length ≤ n ∧
        Delivered.ofScript script = (Delivered.ofScript rest).prepend (b :: bs)
    | (.interrupted, rest) => Delivered.ofScript script = Delivered.ofScript rest
    | (.failed reason, _) => Delivered.ofScript script = ⟨[], some reason⟩ := by
  induction script with
  | nil => rfl
  | cons d rest ih =>
    match d with
    | .chunk [] => exact ih
    | .chunk (b :: bs) =>
      -- what the read leaves of the chunk stays in the script
      obtain ⟨m, rfl⟩ := Nat.exists_eq_succ_of_ne_zero hn
      refine ⟨Nat.succ_le_succ (List.length_take_le m bs), ?_⟩
      simp only [Delivered.ofScript, Delivered.prepend, List.drop_succ_cons, List.cons_append]
      rw [← List.append_assoc, List.take_append_drop]
    | .interruption => rfl
    | .endOfData => rfl
    | .failure reason => rfl

/-- The same of a source, whose reads may be capped. -/
theorem read_spec {room : Nat} (hroom : room ≠ 0) {s : Source} (hmost : s.most ≠ some 0) :
    match s.read room with
    | (.received [], s') => s.delivered = ⟨[], none⟩ ∧ s'.most = s.most
    | (.received (b :: bs), s') => (b :: bs).length ≤ room ∧
        s.delivered = s'.delivered.prepend (b :: bs) ∧ s'.most = s.most
    | (.interrupted, s') => s.delivered = s'.delivered ∧ s'.most = s.most
    | (.failed reason, _) => s.delivered = ⟨[], some reason⟩ := by
  -- however the read is capped, it asks for one byte at least
  have hread : ∃ n, n ≠ 0 ∧ n ≤ room ∧
      s.read room = ((readScript n s.script).1, { s with script := (readScript n s.script).2 }) := by
    unfold read
    cases hm : s.most with
    | none => exact ⟨room, hroom, Nat.le_refl _, rfl⟩
    | some most =>
      have : most ≠ 0 := fun h0 => hmost (by rw [hm, h0])
      exact ⟨min room most, by omega, Nat.min_le_left _ _, rfl⟩
  obtain ⟨n, hn, hle, heq⟩ := hread
  have hspec := readScript_spec hn s.script
  rw [heq]
  generalize readScript n s.script = r at hspec ⊢
  match r with
  | (.received [], rest) => exact ⟨hspec, rfl⟩
  | (.received (b :: bs), rest) => exact ⟨Nat.le_trans hspec.1 hle, hspec.2, rfl⟩
  | (.interrupted, rest) => exact ⟨hspec, rfl⟩
  | (.failed reason, rest) => exact hspec

/-- **One wait.** Interruptions are passed over. -/
theorem await_spec {room : Nat} (hroom : room ≠ 0) {s : Source} (hmost : s.most ≠ some 0) :
    match s.await room with
    | (.ok [], s') => s.delivered = ⟨[], none⟩ ∧ s'.most = s.most
    | (.ok (b :: bs), s') => (b :: bs).length ≤ room ∧
        s.delivered = s'.delivered.prepend (b :: bs) ∧ s'.most = s.most
    | (.error reason, _) => s.delivered = ⟨[], some reason⟩ := by
  have hspec := read_spec hroom hmost
  fun_induction await room s with
  | case1 s bytes s' hr =>
    rw [hr] at hspec
    cases bytes with
    | nil => exact hspec
    | cons b bs => exact hspec
  | case2 s reason s' hr =>
    rw [hr] at hspec
    exact hspec
  | case3 s s' hr ih =>
    -- an interruption brings nothing and loses nothing
    rw [hr] at hspec
    have hmost' : s'.most ≠ some 0 := hspec.2 ▸ hmost
    rw [hspec.1, ← hspec.2]
    exact ih hmost' (read_spec hroom hmost')

end Source

/-! ## The view of a reader -/

/-- Where the marks of a window may be. Once the data has ended a place in it stays free. -/
structure Window.Sound (capacity : Nat) (w : Window) : Prop where
  space_eq : w.space = capacity + 1
  needed_le : w.needed ≤ w.cursor
  cursor_le : w.cursor ≤ w.held.size
  held_le : w.held.size ≤ w.space
  ended_lt : w.ended = true → w.held.size < w.space

/-- The bytes of the word in progress before the cursor. -/
def Window.taken (w : Window) : List UInt8 :=
  (w.held.extract w.needed w.cursor).toList

/-- The bytes in view from the cursor on. -/
def Window.inView (w : Window) : List UInt8 :=
  w.held.toList.drop w.cursor

namespace Reader

/-- The window of a reader is sound for words of up to `capacity` bytes, and a read of its source brings
at least one byte while there are any. -/
structure Sound (capacity : Nat) (r : Reader) : Prop where
  window : r.window.Sound capacity
  most : r.source.most ≠ some 0

/-- What is still to come: what is in view, and then, unless the data has ended, what the source has. -/
def upcoming (r : Reader) : Delivered :=
  if r.window.ended then ⟨r.window.inView, none⟩ else r.source.delivered.prepend r.window.inView

/-- `r'` stands at the same place of the same text as `r`, however its window has been moved. -/
structure SameView (r r' : Reader) : Prop where
  taken : r'.window.taken = r.window.taken
  upcoming : r'.upcoming = r.upcoming
  marked : r'.window.mark.isSome = r.window.mark.isSome

end Reader

/-! ### What the steps of a window do to the view -/

namespace Window

variable {w : Window} {capacity : Nat}

theorem taken_length (h : w.Sound capacity) : w.taken.length = w.cursor - w.needed := by
  have := h.cursor_le
  simp only [taken, Array.length_toList, Array.size_extract]
  omega

theorem taken_eq_nil (h : w.mark = none) : w.taken = [] := by
  simp [taken, needed, h]

theorem inView_of_current {b : UInt8} (h : w.current? = some b) :
    ∃ rest, w.inView = b :: rest ∧ w.advance.inView = rest := by
  obtain ⟨hlt, hb⟩ := Array.getElem?_eq_some_iff.1 h
  refine ⟨w.held.toList.drop (w.cursor + 1), ?_, rfl⟩
  have hlt' : w.cursor < w.held.toList.length := by simpa using hlt
  rw [inView, List.drop_eq_getElem_cons hlt', Array.getElem_toList, hb]

theorem inView_of_not_current (h : w.current? = none) : w.inView = [] := by
  have hle : w.held.size ≤ w.cursor := Array.getElem?_eq_none_iff.1 h
  exact List.drop_eq_nil_of_le (by simpa using hle)

theorem cursor_lt_of_current {b : UInt8} (h : w.current? = some b) : w.cursor < w.held.size :=
  (Array.getElem?_eq_some_iff.1 h).1

theorem needed_compact : w.compact.needed = 0 := by
  cases hm : w.mark <;> simp [compact, needed, hm]

theorem compact_sound (h : w.Sound capacity) : w.compact.Sound capacity where
  space_eq := h.space_eq
  needed_le := by rw [needed_compact]; exact Nat.zero_le _
  cursor_le := by
    have := h.cursor_le
    simp only [compact, Array.size_extract]
    omega
  held_le := by
    have := h.held_le
    simp only [compact, Array.size_extract]
    omega
  ended_lt := by
    intro hend
    have := h.ended_lt hend
    simp only [compact, Array.size_extract]
    omega

theorem taken_compact (h : w.Sound capacity) : w.compact.taken = w.taken := by
  have := h.needed_le
  have := h.cursor_le
  simp only [taken, needed_compact]
  simp only [compact, Array.extract_extract, Nat.add_zero]
  congr 2
  omega

theorem inView_compact (h : w.Sound capacity) : w.compact.inView = w.inView := by
  have := h.needed_le
  simp only [inView, compact, Array.toList_extract, List.extract_eq_take_drop]
  rw [List.take_of_length_le (by simp), List.drop_drop]
  congr 1
  omega

/-- Bytes that there is room for may be taken in. -/
theorem receive_sound (h : w.Sound capacity) (hend : w.ended = false) {bytes : List UInt8}
    (hlen : bytes.length ≤ w.room) : (w.receive bytes).Sound capacity where
  space_eq := h.space_eq
  needed_le := h.needed_le
  cursor_le := by
    have := h.cursor_le
    simp only [receive, Array.size_append]
    omega
  held_le := by
    have := h.held_le
    simp only [room] at hlen
    simp only [receive, Array.size_append, List.size_toArray]
    omega
  ended_lt := by
    intro hend'
    rw [show (w.receive bytes).ended = w.ended from rfl, hend] at hend'
    cases hend'

theorem taken_receive (h : w.Sound capacity) (bytes : List UInt8) :
    (w.receive bytes).taken = w.taken := by
  have hnone : w.cursor - w.held.size = 0 := Nat.sub_eq_zero_of_le h.cursor_le
  show ((w.held ++ bytes.toArray).extract w.needed w.cursor).toList = _
  rw [Array.extract_append, hnone]
  simp [taken]

theorem inView_receive (h : w.Sound capacity) (bytes : List UInt8) :
    (w.receive bytes).inView = w.inView ++ bytes := by
  have : w.cursor ≤ w.held.toList.length := by simpa using h.cursor_le
  simp only [inView, receive, Array.toList_append]
  rw [List.drop_append_of_le_length this]

theorem finish_sound (h : w.Sound capacity) (hroom : w.room ≠ 0) : w.finish.Sound capacity where
  space_eq := h.space_eq
  needed_le := h.needed_le
  cursor_le := h.cursor_le
  held_le := h.held_le
  ended_lt := by
    intro _
    simp only [room] at hroom
    show w.held.size < w.space
    omega

theorem advance_sound {b : UInt8} (h : w.Sound capacity) (hb : w.current? = some b) : w.advance.Sound capacity where
  space_eq := h.space_eq
  needed_le := by
    have hle : w.mark.getD w.cursor ≤ w.cursor := h.needed_le
    show w.mark.getD (w.cursor + 1) ≤ w.cursor + 1
    cases hm : w.mark with
    | none => exact Nat.le_refl _
    | some m =>
      rw [hm] at hle
      exact Nat.le_succ_of_le hle
  cursor_le := cursor_lt_of_current hb
  held_le := h.held_le
  ended_lt := h.ended_lt

theorem startWord_sound (h : w.Sound capacity) : w.startWord.Sound capacity :=
  { h with needed_le := Nat.le_refl _ }

theorem takeWord_sound (h : w.Sound capacity) : w.takeWord.2.Sound capacity :=
  { h with needed_le := Nat.le_refl _ }

/-- While a byte is in view the word in progress has at most `capacity` bytes. -/
theorem taken_length_le {b : UInt8} (h : w.Sound capacity) (hb : w.current? = some b) : w.taken.length ≤ capacity := by
  have := taken_length h
  have := cursor_lt_of_current hb
  have := h.held_le
  have := h.space_eq
  omega

end Window

/-! ## Steps of a reader -/

namespace Reader

variable {capacity : Nat} {r : Reader}

theorem upcoming_of_ended (h : r.window.ended = true) : r.upcoming = ⟨r.window.inView, none⟩ :=
  if_pos h

theorem upcoming_of_open (h : r.window.ended = false) :
    r.upcoming = r.source.delivered.prepend r.window.inView :=
  if_neg (by simp [h])

/-- **Refilling.** With nothing in view, more of the source comes into view, or its end is met; a word that
fills the window stops the reading. -/
theorem refill_spec (h : r.Sound capacity) (hview : r.window.current? = none) :
    match r.refill with
    | .ok r' => r'.Sound capacity ∧ r.SameView r' ∧
        (r'.window.current? = none → r.upcoming = ⟨[], none⟩ ∧ r.window.taken.length ≤ capacity)
    | .error f => (f = .limitCheck ∧ capacity < r.window.taken.length) ∨
        (∃ reason, f = .unreadable reason ∧ r.upcoming = ⟨[], some reason⟩ ∧
          r.window.taken.length ≤ capacity) := by
  have hnil := Window.inView_of_not_current hview
  have htaken := Window.taken_length h.window
  have hspace := h.window.space_eq
  have hcur := h.window.cursor_le
  unfold refill
  by_cases hend : r.window.ended = true
  · have hlt := h.window.ended_lt hend
    rw [if_pos hend]
    refine ⟨h, ⟨rfl, rfl, rfl⟩, fun _ => ⟨?_, by omega⟩⟩
    rw [upcoming_of_ended hend, hnil]
  rw [if_neg hend]
  rw [Bool.not_eq_true] at hend
  have hsize : r.window.compact.held.size = r.window.held.size - r.window.needed := by
    simp [Window.compact]
  -- with nothing in view, what compacting keeps is the word in progress
  have hfull : r.window.cursor = r.window.held.size :=
    Nat.le_antisymm hcur (Array.getElem?_eq_none_iff.1 hview)
  have hroom_eq : r.window.compact.room = r.window.space - (r.window.held.size - r.window.needed) := by
    rw [← hsize]
    rfl
  by_cases hroom : r.window.compact.room = 0
  · rw [if_pos hroom]
    exact Or.inl ⟨rfl, by omega⟩
  rw [if_neg hroom]
  have hw := Window.compact_sound h.window
  have hup : r.upcoming = r.source.delivered := by
    rw [upcoming_of_open hend, hnil, Delivered.prepend_nil]
  have hawait := Source.await_spec hroom h.most
  generalize r.source.await r.window.compact.room = reply at hawait ⊢
  obtain ⟨result, s'⟩ := reply
  cases result with
  | error reason => exact Or.inr ⟨reason, rfl, hup.trans hawait, by omega⟩
  | ok bytes =>
    cases bytes with
    | nil =>
      -- the source has nothing left, so the view is the end of the data
      obtain ⟨hd, hmost⟩ := hawait
      refine ⟨⟨Window.finish_sound hw hroom, hmost ▸ h.most⟩, ⟨?_, ?_, ?_⟩,
        fun _ => ⟨hup.trans hd, by omega⟩⟩
      · exact Window.taken_compact h.window
      · rw [upcoming_of_ended rfl, hup, hd]
        exact congrArg (Delivered.mk · none) ((Window.inView_compact h.window).trans hnil)
      · exact Option.isSome_map
    | cons b bs =>
      -- the bytes pass from the source into the window, which leaves the view as it is
      obtain ⟨hlen, hd, hmost⟩ := hawait
      have hview' : (r.window.compact.receive (b :: bs)).inView = b :: bs := by
        rw [Window.inView_receive hw, Window.inView_compact h.window, hnil, List.nil_append]
      refine ⟨⟨Window.receive_sound hw hend hlen, hmost ▸ h.most⟩, ⟨?_, ?_, ?_⟩, fun hnone => ?_⟩
      · exact (Window.taken_receive hw _).trans (Window.taken_compact h.window)
      · have hopen := upcoming_of_open (r := ⟨r.window.compact.receive (b :: bs), s'⟩) hend
        rw [hopen, hup, hd]
        exact congrArg s'.delivered.prepend hview'
      · exact Option.isSome_map
      · rw [Window.inView_of_not_current hnone] at hview'
        cases hview'

/-- **Looking at the next byte** keeps the view. -/
theorem peek_spec (h : r.Sound capacity) :
    match r.peek with
    | .ok (some b, r') => r'.Sound capacity ∧ r.SameView r' ∧ r'.window.current? = some b
    | .ok (none, r') => r'.Sound capacity ∧ r.SameView r' ∧ r.upcoming = ⟨[], none⟩ ∧
        r.window.taken.length ≤ capacity
    | .error f => (f = .limitCheck ∧ capacity < r.window.taken.length) ∨
        (∃ reason, f = .unreadable reason ∧ r.upcoming = ⟨[], some reason⟩ ∧
          r.window.taken.length ≤ capacity) := by
  unfold peek
  cases hb : r.window.current? with
  | some b => exact ⟨h, ⟨rfl, rfl, rfl⟩, hb⟩
  | none =>
    have hspec := refill_spec h hb
    cases hr : r.refill with
    | error f => rw [hr] at hspec; exact hspec
    | ok r' =>
      rw [hr] at hspec
      simp only [Except.map]
      cases hb' : r'.window.current? with
      | none => exact ⟨hspec.1, hspec.2.1, hspec.2.2 hb'⟩
      | some b => exact ⟨hspec.1, hspec.2.1, hb'⟩

/-- The byte that was looked at is the next one of the view. -/
theorem upcoming_of_current {b : UInt8} (hb : r.window.current? = some b) :
    ∃ rest failure, r.upcoming = ⟨b :: rest, failure⟩ ∧ r.advance.upcoming = ⟨rest, failure⟩ := by
  obtain ⟨rest, hview, hadv⟩ := Window.inView_of_current hb
  cases hend : r.window.ended with
  | true =>
    refine ⟨rest, none, by rw [upcoming_of_ended hend, hview], ?_⟩
    rw [upcoming_of_ended (r := r.advance) hend]
    exact congrArg (Delivered.mk · none) hadv
  | false =>
    refine ⟨rest ++ r.source.delivered.bytes, r.source.delivered.failure, ?_, ?_⟩
    · rw [upcoming_of_open hend, hview]
      rfl
    · rw [upcoming_of_open (r := r.advance) hend]
      exact congrArg r.source.delivered.prepend hadv

theorem advance_sound {b : UInt8} (h : r.Sound capacity) (hb : r.window.current? = some b) :
    r.advance.Sound capacity :=
  ⟨Window.advance_sound h.window hb, h.most⟩

/-- A step past a byte of a word adds it to the word. -/
theorem taken_advance {b : UInt8} (h : r.Sound capacity) (hm : r.window.mark.isSome = true)
    (hb : r.window.current? = some b) :
    r.advance.window.taken = r.window.taken ++ [b] := by
  obtain ⟨m, hm⟩ := Option.isSome_iff_exists.mp hm
  obtain ⟨hlt, hget⟩ := Array.getElem?_eq_some_iff.1 hb
  have hneed : r.window.needed = m := by simp [Window.needed, hm]
  have hneed' : r.advance.window.needed = m := by simp [Window.needed, advance, Window.advance, hm]
  have hle := h.window.needed_le
  have hlt' : r.window.cursor < r.window.held.toList.length := by simpa using hlt
  simp only [Window.taken, hneed, hneed', Array.toList_extract, List.extract_eq_take_drop]
  rw [hneed] at hle
  show (r.window.held.toList.drop m).take (r.window.cursor + 1 - m) = _
  rw [show r.window.cursor + 1 - m = (r.window.cursor - m) + 1 by omega, List.take_add_one,
    List.getElem?_drop, show m + (r.window.cursor - m) = r.window.cursor by omega,
    List.getElem?_eq_getElem hlt', Array.getElem_toList, hget]
  rfl

theorem takeWord_sound (h : r.Sound capacity) : r.takeWord.2.Sound capacity :=
  ⟨Window.takeWord_sound h.window, h.most⟩

/-! ## Words -/

/-- **Finishing a word.** The word in progress goes on up to a byte that ends it, to the end of the data,
to a failure or to the end of the window. -/
theorem finishWord_spec (h : r.Sound capacity) (hm : r.window.mark.isSome = true)
    (hne : r.window.taken ≠ []) (hrun : ∀ b ∈ r.window.taken, endsWord b = false) :
    match r.finishWord with
    | .error f => (r.upcoming.prepend r.window.taken).transcript capacity = ⟨[], some f⟩
    | .ok (w, r') => r'.Sound capacity ∧ r'.window.mark = none ∧
        (r.upcoming.prepend r.window.taken).transcript capacity =
          (r'.upcoming.transcript capacity).cons w := by
  have hspec := peek_spec h
  fun_induction finishWord r with
  | case1 r f hp =>
    rw [hp] at hspec
    rcases hspec with ⟨rfl, hlen⟩ | ⟨reason, rfl, hup, hlen⟩
    · -- the window is full of the word
      have hlong : capacity < (r.window.taken ++ runOf r.upcoming.bytes).length := by
        rw [List.length_append]
        omega
      have hview : Delivered.transcript capacity
          ⟨(r.window.taken ++ runOf r.upcoming.bytes) ++ afterRun r.upcoming.bytes,
            r.upcoming.failure⟩ = ⟨[], some .limitCheck⟩ :=
        Delivered.transcript_long_run (by simp [hne])
          (fun b hb => (List.mem_append.mp hb).elim (hrun b) endsWord_of_mem_runOf)
          (fun b => endsWord_of_mem_head?_afterRun) hlong
      rwa [List.append_assoc, runOf_append_afterRun] at hview
    · rw [hup]
      simpa [Delivered.prepend] using Delivered.transcript_cut_run hne hrun hlen
  | case2 r r' hp =>
    rw [hp] at hspec
    obtain ⟨h', hsame, hup, hlen⟩ := hspec
    refine ⟨takeWord_sound h', rfl, ?_⟩
    have hup' : r'.takeWord.2.upcoming = ⟨[], none⟩ := hsame.upcoming.trans hup
    have hw : r'.takeWord.1 = r.window.taken := hsame.taken
    calc (r.upcoming.prepend r.window.taken).transcript capacity
        = (Delivered.transcript capacity ⟨[], none⟩).cons r.window.taken := by
          rw [hup]
          exact Delivered.transcript_run hne hrun (by simp) hlen (.inr rfl)
      _ = (r'.takeWord.2.upcoming.transcript capacity).cons r'.takeWord.1 := by rw [hup', hw]
  | case3 r b r' hp hb =>
    rw [hp] at hspec
    obtain ⟨h', hsame, hcur⟩ := hspec
    refine ⟨takeWord_sound h', rfl, ?_⟩
    obtain ⟨rest, failure, hup, _⟩ := upcoming_of_current hcur
    have hup' : r'.takeWord.2.upcoming = ⟨b :: rest, failure⟩ := hup
    have hw : r'.takeWord.1 = r.window.taken := hsame.taken
    have hlen : r.window.taken.length ≤ capacity := hsame.taken ▸ Window.taken_length_le h'.window hcur
    calc (r.upcoming.prepend r.window.taken).transcript capacity
        = (Delivered.transcript capacity ⟨b :: rest, failure⟩).cons r.window.taken := by
          rw [← hsame.upcoming, hup]
          exact Delivered.transcript_run hne hrun (by simp [hb]) hlen (.inl (by simp))
      _ = (r'.takeWord.2.upcoming.transcript capacity).cons r'.takeWord.1 := by rw [hup', hw]
  | case4 r b r' hp hb ih =>
    rw [hp] at hspec
    obtain ⟨h', hsame, hcur⟩ := hspec
    have hm' : r'.window.mark.isSome = true := hsame.marked.trans hm
    have hadv := advance_sound h' hcur
    have htaken : r'.advance.window.taken = r.window.taken ++ [b] := by
      rw [taken_advance h' hm' hcur, hsame.taken]
    have hrun' : ∀ c ∈ r'.advance.window.taken, endsWord c = false := by
      intro c hc
      rw [htaken, List.mem_append, List.mem_singleton] at hc
      rcases hc with hc | rfl
      · exact hrun c hc
      · simpa using hb
    -- moving `b` from what is to come into the word in progress changes nothing
    have hview : r.upcoming.prepend r.window.taken =
        r'.advance.upcoming.prepend r'.advance.window.taken := by
      obtain ⟨rest, failure, hup, hup'⟩ := upcoming_of_current hcur
      rw [← hsame.upcoming, hup, hup', htaken]
      simp [Delivered.prepend]
    rw [hview]
    exact ih hadv hm' (by simp [htaken]) hrun' (peek_spec hadv)

/-- **Skipping blanks** leaves the transcript alone. -/
theorem skipBlanks_spec (h : r.Sound capacity) (hm : r.window.mark = none) :
    match r.skipBlanks with
    | .error f => r.upcoming.transcript capacity = ⟨[], some f⟩
    | .ok (none, _) => r.upcoming.transcript capacity = ⟨[], none⟩
    | .ok (some b, r') => r'.Sound capacity ∧ r'.window.mark = none ∧
        r'.window.current? = some b ∧ isBlank b = false ∧
        r.upcoming.transcript capacity = r'.upcoming.transcript capacity := by
  have hspec := peek_spec h
  fun_induction skipBlanks r with
  | case1 r f hp =>
    rw [hp] at hspec
    rcases hspec with ⟨_, hlen⟩ | ⟨reason, rfl, hup, _⟩
    · -- no word is in progress, so the window cannot be full of one
      rw [Window.taken_eq_nil hm] at hlen
      exact absurd hlen (Nat.not_lt_zero _)
    · rw [hup]
      exact Delivered.transcript_nil
  | case2 r r' hp =>
    rw [hp] at hspec
    rw [hspec.2.2.1]
    exact Delivered.transcript_nil
  | case3 r b r' hp hb ih =>
    rw [hp] at hspec
    obtain ⟨h', hsame, hcur⟩ := hspec
    have hm' : r'.window.mark = none := by
      have := hsame.marked
      rw [hm] at this
      simpa using this
    have hadv := advance_sound h' hcur
    have hview : r.upcoming.transcript capacity = r'.advance.upcoming.transcript capacity := by
      obtain ⟨rest, failure, hup, hup'⟩ := upcoming_of_current hcur
      rw [← hsame.upcoming, hup, hup']
      exact Delivered.transcript_blank hb rest
    rw [hview]
    exact ih hadv hm' (peek_spec hadv)
  | case4 r b r' hp hb =>
    rw [hp] at hspec
    obtain ⟨h', hsame, hcur⟩ := hspec
    have hm' : r'.window.mark = none := by
      have := hsame.marked
      rw [hm] at this
      simpa using this
    exact ⟨h', hm', hcur, by simpa using hb, by rw [hsame.upcoming]⟩

/-- **The next word** is the first of the transcript. -/
theorem nextWord?_spec (hc : 1 ≤ capacity) (h : r.Sound capacity) (hm : r.window.mark = none) :
    match r.nextWord? with
    | .error f => r.upcoming.transcript capacity = ⟨[], some f⟩
    | .ok none => r.upcoming.transcript capacity = ⟨[], none⟩
    | .ok (some (w, r')) => r'.Sound capacity ∧ r'.window.mark = none ∧
        r.upcoming.transcript capacity = (r'.upcoming.transcript capacity).cons w := by
  have hspec := skipBlanks_spec h hm
  unfold nextWord?
  generalize r.skipBlanks = skipped at hspec ⊢
  match skipped with
  | .error f => exact hspec
  | .ok (none, _) => exact hspec
  | .ok (some b, r') =>
    obtain ⟨h', hm', hcur, hblank, hview⟩ := hspec
    obtain ⟨rest, failure, hup, hup'⟩ := upcoming_of_current hcur
    -- marking the place of `b` puts no byte into the word yet
    have hstart : r'.startWord.Sound capacity := ⟨Window.startWord_sound h'.window, h'.most⟩
    have hbegun : r'.startWord.advance.Sound capacity := advance_sound hstart hcur
    have htaken : r'.startWord.advance.window.taken = [b] := by
      rw [taken_advance hstart rfl hcur]
      simp [Window.taken, Window.needed, startWord, Window.startWord]
    have hupcoming : r'.startWord.advance.upcoming = ⟨rest, failure⟩ := hup'
    rw [hview, hup]
    simp only
    by_cases hb : isBrace b = true
    · rw [if_pos hb]
      refine ⟨takeWord_sound hbegun, rfl, ?_⟩
      calc Delivered.transcript capacity ⟨b :: rest, failure⟩
          = (Delivered.transcript capacity ⟨rest, failure⟩).cons [b] :=
            Delivered.transcript_brace hb hc rest
        _ = _ := by rw [← hupcoming, ← htaken]; rfl
    · rw [if_neg hb]
      have hend : ∀ c ∈ r'.startWord.advance.window.taken, endsWord c = false := by
        intro c hc
        rw [htaken, List.mem_singleton] at hc
        simpa [endsWord, hc, hblank] using hb
      have hfinish := finishWord_spec hbegun rfl (by simp [htaken]) hend
      rw [hupcoming, htaken] at hfinish
      cases hf : r'.startWord.advance.finishWord with
      | error f => rw [hf] at hfinish; exact hfinish
      | ok p => rw [hf] at hfinish; exact hfinish

end Reader

/-! ## The whole reading -/

/-- The words after those in `earlier`. -/
theorem Reader.transcriptAfter_spec {capacity : Nat} (hc : 1 ≤ capacity) {r : Reader}
    (h : r.Sound capacity) (hm : r.window.mark = none) (earlier : List Word) :
    r.transcriptAfter earlier =
      ⟨earlier.reverse ++ (r.upcoming.transcript capacity).words,
        (r.upcoming.transcript capacity).fault⟩ := by
  have hspec := nextWord?_spec hc h hm
  -- on the reading: every word leaves a reader with less to come
  fun_induction transcriptAfter earlier r with
  | case1 earlier r f hn =>
    rw [hn] at hspec
    simp [hspec]
  | case2 earlier r hn =>
    rw [hn] at hspec
    simp [hspec]
  | case3 earlier r w r' hn ih =>
    rw [hn] at hspec
    obtain ⟨h', hm', hview⟩ := hspec
    rw [ih h' hm' (nextWord?_spec hc h' hm'), hview]
    simp [Transcript.cons]

/-- Unless its length wraps round, the buffer of an empty window admits words of up to `capacity` bytes. -/
theorem Window.ofCapacity_sound {capacity : Nat} (h : ¬Window.Wraps capacity) :
    (Window.ofCapacity capacity).Sound (max capacity 1) where
  space_eq := Window.space_ofCapacity h
  needed_le := Nat.le_refl _
  cursor_le := Nat.le_refl _
  held_le := Nat.zero_le _
  ended_lt hend := by cases hend

/-- **The window does not show.** Whatever reads a source is cut into, the reader finds the words of what
it delivers, and stops where the transcript of that does. -/
theorem transcript_ofSource {source : Source} (hmost : source.most ≠ some 0) {capacity : Nat}
    (hwraps : ¬Window.Wraps capacity) :
    (Reader.ofSource capacity source).transcript =
      source.delivered.transcript (max capacity 1) := by
  have h : (Reader.ofSource capacity source).Sound (max capacity 1) :=
    ⟨Window.ofCapacity_sound hwraps, hmost⟩
  have hup : (Reader.ofSource capacity source).upcoming = source.delivered :=
    Delivered.prepend_nil _
  unfold Reader.transcript
  rw [Reader.transcriptAfter_spec (Nat.le_max_right _ _) h rfl, hup]
  rfl

/-! ## No room for any byte -/

/-- A reader that meets a fault before any byte. -/
theorem Reader.transcript_of_peek_error {r : Reader} {f : Fault} (h : r.peek = .error f) :
    r.transcript = ⟨[], some f⟩ := by
  have hskip : r.skipBlanks = .error f := by
    rw [skipBlanks]
    split <;> simp_all
  have hnext : r.nextWord? = .error f := by
    rw [nextWord?, hskip]
  rw [transcript, transcriptAfter]
  split <;> simp_all

/-- A buffer whose length wraps round to nothing stops the reading of every source at once. -/
theorem transcript_ofSource_of_wraps {capacity : Nat} (h : Window.Wraps capacity) (source : Source) :
    (Reader.ofSource capacity source).transcript = ⟨[], some .limitCheck⟩ := by
  apply Reader.transcript_of_peek_error
  have hroom : (Window.ofCapacity capacity).compact.room = 0 := by
    show (Window.ofCapacity capacity).space - _ = 0
    rw [Window.space_ofCapacity_of_wraps h, Nat.zero_sub]
  have hrefill : (Reader.ofSource capacity source).refill = .error .limitCheck :=
    if_pos hroom
  show (Reader.ofSource capacity source).refill.map _ = _
  rw [hrefill]
  rfl

/-- Then only the inputs matter: if they find room, the evaluation ends for want of any in the buffer. -/
theorem evaluate_of_wraps {e : Elementary} {n : Nat} {o : Options} (h : Window.Wraps o.bufferCapacity)
    (source : Source) (inputs : List Float) :
    evaluate e n o source inputs =
      some ((Action.outcome (Stack.pushNumbers inputs) { limit := o.maxStackDepth }).bind
        fun _ => .error .limitCheck) := by
  unfold evaluate
  cases Action.outcome (Stack.pushNumbers inputs) { limit := o.maxStackDepth } with
  | error f => rfl
  | ok stack =>
    rw [transcript_ofSource_of_wraps h]
    rfl

/-- Nothing is read: under these limits every source comes to the same fault, whatever the policies. It is one of
the inputs, or that the buffer has no room. -/
structure Unread (o : Options) (inputs : List Float) (f : Fault) : Prop where
  cause : Action.outcome (Stack.pushNumbers inputs) { limit := o.maxStackDepth } = .error f ∨ f = .limitCheck
  evaluate_eq : ∀ (e : Elementary) (n : Nat) (o' : Options) (source : Source), o'.maxStackDepth = o.maxStackDepth →
    o'.bufferCapacity = o.bufferCapacity → evaluate e n o' source inputs = some (.error f)

/-- Either nothing is read, or the inputs find room on the stack and the bytes in the buffer. -/
theorem unread_or_read (o : Options) (inputs : List Float) :
    (∃ f, Unread o inputs f) ∨ ¬Window.Wraps o.bufferCapacity ∧
      ∃ stack, Action.outcome (Stack.pushNumbers inputs) { limit := o.maxStackDepth } = .ok stack := by
  cases hp : Action.outcome (Stack.pushNumbers inputs) { limit := o.maxStackDepth } with
  | error f =>
    refine .inl ⟨f, .inl hp, fun e n o' source hlimit _ => ?_⟩
    rw [evaluate, hlimit, hp]
  | ok stack =>
    by_cases hwraps : Window.Wraps o.bufferCapacity
    · refine .inl ⟨.limitCheck, .inr rfl, fun e n o' source hlimit hcapacity => ?_⟩
      rw [evaluate_of_wraps (hcapacity ▸ hwraps), hlimit, hp]
      rfl
    · exact .inr ⟨hwraps, stack, rfl⟩

/-! ## The whole evaluation -/

/-- Inputs that find room leave the words of what is delivered to be worked through. -/
theorem evaluate_of_inputs {e : Elementary} {n : Nat} {o : Options} {source : Source}
    (hmost : source.most ≠ some 0) (hwraps : ¬Window.Wraps o.bufferCapacity) {inputs : List Float}
    {stack : Stack}
    (h : Action.outcome (Stack.pushNumbers inputs) { limit := o.maxStackDepth } = .ok stack) :
    evaluate e n o source inputs =
      (source.delivered.transcript (max o.bufferCapacity 1)).evaluate e n o stack := by
  unfold evaluate
  rw [h, ← transcript_ofSource hmost hwraps]

/-- The source delivers the text, by reads that bring at least one byte each, and then ends without a
failure. -/
structure Source.Delivers (source : Source) (text : List UInt8) : Prop where
  most : source.most ≠ some 0
  delivered : source.delivered = ⟨text, none⟩

theorem Source.ofBytes_delivers (text : List UInt8) : (Source.ofBytes text).Delivers text where
  most := by simp [ofBytes]
  delivered := by simp [ofBytes, Source.delivered, Delivered.ofScript]

/-- Evaluating a source that delivers a text, when the inputs find room. -/
theorem Source.Delivers.evaluate_eq {source : Source} {text : List UInt8} (h : source.Delivers text)
    {e : Elementary} {n : Nat} {o : Options} (hwraps : ¬Window.Wraps o.bufferCapacity)
    {inputs : List Float} {stack : Stack}
    (hstack : Action.outcome (Stack.pushNumbers inputs) { limit := o.maxStackDepth } = .ok stack) :
    evaluate e n o source inputs =
      (Delivered.transcript (max o.bufferCapacity 1) ⟨text, none⟩).evaluate e n o stack := by
  rw [evaluate_of_inputs h.most hwraps hstack, h.delivered]

/-- **Evaluation does not see the reads.** For every way of delivering a text, and every buffer that memory
can hold, evaluating a source is evaluating what it delivers. -/
theorem evaluate_eq_delivered (e : Elementary) (n : Nat) (o : Options) (source : Source)
    (inputs : List Float) (hmost : source.most ≠ some 0) (hfits : Window.Fits o.bufferCapacity) :
    evaluate e n o source inputs = source.delivered.evaluate e n o inputs := by
  cases hp : Action.outcome (Stack.pushNumbers inputs) { limit := o.maxStackDepth } with
  | error f => simp only [evaluate, Delivered.evaluate, hp]
  | ok stack =>
    rw [evaluate_of_inputs hmost hfits.not_wraps hp]
    simp only [Delivered.evaluate, hp]

/-- A word of four bytes that fills the window, cut by an interruption, by reads of at most three bytes and
by the end of a chunk; what stands after the end of the data is not read. -/
theorem evaluate_eq_delivered_cut_word :
    (some 3 : Option Nat) ≠ some 0 ∧ Window.Fits 4 ∧
      evaluate .machine 0 { bufferCapacity := 4 }
          ⟨[.chunk [0x7B, 0x20, 0x74, 0x72], .interruption, .chunk [0x75, 0x65, 0x7D], .endOfData,
            .chunk [0x70, 0x6F, 0x70]], some 3⟩ [] =
        some (.ok ⟨[.boolean true], some 100⟩) :=
  ⟨by decide, by decide,
    (evaluate_eq_delivered .machine 0 _ _ [] (by decide) (by decide)).trans (by rfl)⟩

/-- Words of any length that a machine word can tell are to be admitted. -/
def largestBuffer : Options where
  bufferCapacity := 0xFFFFFFFFFFFFFFFF

/-- The buffer that these options ask for has no room for any byte. -/
theorem evaluate_largestBuffer (e : Elementary) (n : Nat) (source : Source) :
    evaluate e n largestBuffer source [] = some (.error .limitCheck) :=
  evaluate_of_wraps (by decide) source []

/-- So `{}`, whose two words have one byte each, is not evaluated as it is delivered. -/
theorem not_evaluate_eq_delivered_largest :
    ¬∀ (e : Elementary) (n : Nat) (o : Options) (source : Source) (inputs : List Float),
      source.most ≠ some 0 →
        evaluate e n o source inputs = source.delivered.evaluate e n o inputs := by
  intro h
  have hread := h .machine 0 largestBuffer (.ofBytes [0x7B, 0x7D]) [] (by decide)
  rw [evaluate_largestBuffer] at hread
  cases hread

end TypeFour
