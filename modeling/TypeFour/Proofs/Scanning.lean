import Mathlib.Logic.Function.Iterate
import TypeFour.Proofs.Reading

/-!
# `TypeFour.Proofs.Scanning` — the reading, one thing at a time

What the reader does is told here as single steps: it looks at the byte at the cursor, reads, marks the beginning
of a word, passes a byte, gives a word out. Every read is a step of its own, so that whatever holds between two
steps holds at every moment of the reading. The steps read from anything that bytes can be read from; out of a
source they come to the transcript of the reader.

Shape. `Scan.Sound` is what every step keeps (`Sound.step`): the marks of the window are in order, and what has been
passed and what is kept are all bytes that have come. It also says what each task relies on, which is shown where
the task comes up and used where it is done. From there on it is one function of the reader after another: each is
some steps (`eventually_peek`, `eventually_nextWord`).

## Contents
- `Source.bytes`, `read_bytes` — a read takes from the source what it brings.
- `Window.kept` — the bytes in view that are still needed, and what becomes of them.
- `Feed`, `Scan`, `Scan.step`, `Scan.moment` — what is read from, and the steps.
- `Scan.Sound`, `moment_sound` — the invariant, at every moment.
- `not_ask_of_meetsEnd`, `Sound.step_stop_iff` — the end of the data, and words that are too long.
- `Eventually`, `moment_transcript` — what the steps come to.
- `InOrder`, `reading_inOrder` — the whole reading; `not_reading_inOrder_largest` — a buffer without room.
-/

namespace TypeFour

theorem not_isBrace_of_not_endsWord {b : UInt8} (h : ¬endsWord b = true) : ¬isBrace b = true :=
  fun hbrace => h (by simp [endsWord, hbrace])

/-! ## Bytes of a source -/

namespace Source

/-- All the bytes of a script, in order; those after an end or a failure too. -/
def scriptBytes : List Delivery → List UInt8
  | [] => []
  | .chunk bytes :: rest => bytes ++ scriptBytes rest
  | _ :: rest => scriptBytes rest

/-- All the bytes that a source still has. -/
def bytes (s : Source) : List UInt8 :=
  scriptBytes s.script

/-- The bytes that a reply brings. -/
def Reply.bytes : Reply → List UInt8
  | .received bytes => bytes
  | _ => []

theorem readScript_bytes (n : Nat) (script : List Delivery) :
    Reply.bytes (readScript n script).1 ++ scriptBytes (readScript n script).2 = scriptBytes script ∧
      (Reply.bytes (readScript n script).1).length ≤ n := by
  induction script with
  | nil => exact ⟨rfl, Nat.zero_le n⟩
  | cons d rest ih =>
    match d with
    | .chunk [] => exact ih
    | .chunk (b :: bs) =>
      refine ⟨?_, List.length_take_le n (b :: bs)⟩
      show (b :: bs).take n ++ ((b :: bs).drop n ++ scriptBytes rest) = b :: bs ++ scriptBytes rest
      rw [← List.append_assoc, List.take_append_drop]
    | .interruption => exact ⟨rfl, Nat.zero_le n⟩
    | .endOfData => exact ⟨rfl, Nat.zero_le n⟩
    | .failure _ => exact ⟨rfl, Nat.zero_le n⟩

/-- **A read** takes from the source what it brings, and brings no more than there is room for. -/
theorem read_bytes {room : Nat} {s s' : Source} {reply : Reply} (h : s.read room = (reply, s')) :
    Reply.bytes reply ++ s'.bytes = s.bytes ∧ (Reply.bytes reply).length ≤ room := by
  obtain ⟨n, hn, heq⟩ : ∃ n ≤ room,
      s.read room = ((readScript n s.script).1, { s with script := (readScript n s.script).2 }) := by
    unfold read
    cases s.most with
    | none => exact ⟨room, Nat.le_refl _, rfl⟩
    | some most => exact ⟨min room most, Nat.min_le_left _ _, rfl⟩
  obtain ⟨hbytes, hlen⟩ := readScript_bytes n s.script
  rw [heq] at h
  cases h
  exact ⟨hbytes, Nat.le_trans hlen hn⟩

end Source

/-! ## Bytes in view -/

namespace Window

/-- The bytes in view that are still needed: the word in progress, and what comes after it. -/
def kept (w : Window) : List UInt8 :=
  w.held.toList.drop w.needed

variable {w : Window} {capacity : Nat}

theorem kept_compact (w : Window) : w.compact.kept = w.kept := by
  rw [kept, needed_compact, List.drop_zero]
  show (w.held.extract w.needed w.held.size).toList = w.held.toList.drop w.needed
  rw [Array.toList_extract, List.extract_eq_take_drop]
  exact List.take_of_length_le (by simp)

theorem kept_receive (h : w.Sound capacity) (bytes : List UInt8) : (w.receive bytes).kept = w.kept ++ bytes := by
  have hle : w.needed ≤ w.held.toList.length := by simpa using Nat.le_trans h.needed_le h.cursor_le
  show (w.held ++ bytes.toArray).toList.drop w.needed = _
  rw [Array.toList_append, List.drop_append_of_le_length hle]
  rfl

theorem kept_advance_of_marked (h : w.mark.isSome = true) : w.advance.kept = w.kept := by
  obtain ⟨m, hm⟩ := Option.isSome_iff_exists.mp h
  simp [kept, needed, advance, hm]

theorem kept_advance_of_not_marked {b : UInt8} (h : w.mark = none) (hb : w.current? = some b) :
    w.kept = b :: w.advance.kept := by
  obtain ⟨rest, hview, hadvance⟩ := inView_of_current hb
  have hkept : w.kept = w.inView := by simp [kept, inView, needed, h]
  have hkept' : w.advance.kept = w.advance.inView := by simp [kept, inView, needed, advance, h]
  rw [hkept, hkept', hview, hadvance]

theorem kept_startWord (h : w.mark = none) : w.startWord.kept = w.kept := by
  simp [kept, needed, startWord, h]

theorem kept_takeWord (h : w.Sound capacity) : w.takeWord.1 ++ w.takeWord.2.kept = w.kept := by
  have hle := h.needed_le
  show (w.held.extract w.needed w.cursor).toList ++ w.held.toList.drop w.cursor = w.held.toList.drop w.needed
  rw [Array.toList_extract, List.extract_eq_take_drop, ← Nat.add_sub_of_le hle, Nat.add_sub_cancel_left,
    ← List.drop_drop, List.take_append_drop]

/-- With nothing in view the cursor is behind all bytes. -/
theorem cursor_eq_of_not_current (h : w.Sound capacity) (hb : w.current? = none) : w.cursor = w.held.size :=
  Nat.le_antisymm h.cursor_le (Array.getElem?_eq_none_iff.1 hb)

theorem current_compact_of_not_current (hb : w.current? = none) : w.compact.current? = none := by
  have hle : w.held.size ≤ w.cursor := Array.getElem?_eq_none_iff.1 hb
  apply Array.getElem?_eq_none_iff.2
  simp only [compact, Array.size_extract]
  omega

/-- With nothing in view, the first byte that comes is the one at the cursor. -/
theorem current_receive (h : w.Sound capacity) (hb : w.current? = none) (b : UInt8) (bs : List UInt8) :
    (w.receive (b :: bs)).current? = some b := by
  have hbehind := cursor_eq_of_not_current h hb
  simp [current?, receive, hbehind]

theorem taken_length_advance_le {b : UInt8} (h : w.Sound capacity) (hb : w.current? = some b) :
    w.advance.taken.length ≤ w.taken.length + 1 := by
  rw [taken_length h, taken_length (advance_sound h hb)]
  cases hm : w.mark <;> simp only [needed, advance, hm, Option.getD] <;> omega

/-- The word in progress is longer than `capacity` where it fills the window, and nowhere else. -/
theorem taken_length_eq_space_iff (h : w.Sound capacity) : w.taken.length = w.space ↔ capacity < w.taken.length := by
  have := taken_length h
  have := h.cursor_le
  have := h.held_le
  have := h.space_eq
  omega

theorem taken_length_le_of_room (h : w.Sound capacity) (hroom : w.room ≠ 0) : w.taken.length ≤ capacity := by
  have := taken_length h
  have := h.cursor_le
  have := h.space_eq
  simp only [room] at hroom
  omega

/-- With nothing in view, what is kept is the word in progress; it may leave no room. -/
theorem room_compact_eq_zero_iff (h : w.Sound capacity) (hb : w.current? = none) :
    w.compact.room = 0 ↔ w.taken.length = w.space := by
  have hsize : w.compact.held.size = w.held.size - w.needed := by simp [compact]
  have := cursor_eq_of_not_current h hb
  have := taken_length h
  have := h.held_le
  show w.space - w.compact.held.size = 0 ↔ _
  omega

end Window

/-! ## Steps -/

/-- Anything that bytes can be read from: what one read into some free places comes to, and what it leaves. No read
brings more bytes than there are free places. -/
structure Feed where
  State : Type
  read : Nat → State → Reply × State
  length_le : ∀ {room state bytes state'}, read room state = (.received bytes, state') → bytes.length ≤ room

/-- Reading from a source. -/
@[reducible] def Source.feed : Feed where
  State := Source
  read := Source.read
  length_le h := (Source.read_bytes h).2

/-- What the reader is about to do. -/
inductive Scan.Task where
  /-- Look at the byte at the cursor. -/
  | look
  /-- Read once. -/
  | ask
  /-- Begin a word at the cursor, where `b` has been seen. -/
  | mark (b : UInt8)
  /-- Step past `b`, which has been seen at the cursor. -/
  | pass (b : UInt8)
  /-- Give out the word in progress. -/
  | give
  /-- Say that there are no more words. -/
  | finish
  /-- Nothing any more. -/
  | stop (fault : Fault)

/-- The reading between two steps. -/
structure Scan (feed : Feed) where
  window : Window
  source : feed.State
  task : Scan.Task := .look
  /-- A word is in progress. -/
  inWord : Bool := false
  /-- All bytes that the reads have brought. -/
  received : List UInt8 := []
  /-- The bytes passed before the word in progress, blanks and earlier words. -/
  passed : List UInt8 := []
  /-- The words given out, the latest first. -/
  words : List Word := []

namespace Scan

variable {feed : Feed}

/-- The reading at its beginning. -/
def start (feed : Feed) (capacity : Nat) (source : feed.State) : Scan feed where
  window := .ofCapacity capacity
  source := source

/-- What comes after the byte `b` has been seen. -/
def onByte (inWord : Bool) (b : UInt8) : Task :=
  if inWord then if endsWord b then .give else .pass b
  else if isBlank b then .pass b else .mark b

/-- What comes after the end of the data has been met. -/
def atEnd (inWord : Bool) : Task :=
  if inWord then .give else .finish

/-- Looks at the byte at the cursor. With none in view and more to come, what nobody needs is given up to make
room. -/
def look (s : Scan feed) : Scan feed :=
  match s.window.current? with
  | some b => { s with task := onByte s.inWord b }
  | none =>
    if s.window.ended then { s with task := atEnd s.inWord }
    else
      { s with
        window := s.window.compact
        task := if s.window.compact.room = 0 then .stop .limitCheck else .ask }

/-- Reads once, into the free places of the window. -/
def ask (s : Scan feed) : Scan feed :=
  match feed.read s.window.room s.source with
  | (.received [], source) => { s with window := s.window.finish, source, task := atEnd s.inWord }
  | (.received bytes, source) =>
    { s with window := s.window.receive bytes, source, received := s.received ++ bytes, task := .look }
  | (.interrupted, source) => { s with source }
  | (.failed reason, source) => { s with source, task := .stop (.unreadable reason) }

/-- Begins a word at the cursor. -/
def mark (s : Scan feed) (b : UInt8) : Scan feed :=
  { s with window := s.window.startWord, inWord := true, task := .pass b }

/-- Steps past the byte at the cursor. A brace is a word by itself. -/
def pass (s : Scan feed) (b : UInt8) : Scan feed :=
  { s with
    window := s.window.advance
    passed := if s.inWord then s.passed else s.passed ++ [b]
    task := if isBrace b then .give else .look }

/-- Gives out the word in progress. -/
def give (s : Scan feed) : Scan feed :=
  { s with
    window := s.window.takeWord.2
    inWord := false
    passed := s.passed ++ s.window.takeWord.1
    words := s.window.takeWord.1 :: s.words
    task := .look }

/-- One step. After the last word the reader may be asked for a word again. -/
def step (s : Scan feed) : Scan feed :=
  match s.task with
  | .look => s.look
  | .ask => s.ask
  | .mark b => s.mark b
  | .pass b => s.pass b
  | .give => s.give
  | .finish => { s with task := .look }
  | .stop _ => s

/-- The reading after `n` steps. -/
def moment (feed : Feed) (capacity : Nat) (source : feed.State) (n : Nat) : Scan feed :=
  step^[n] (start feed capacity source)

/-! ## The invariant -/

/-- The word in progress fills the window. -/
def Full (s : Scan feed) : Prop :=
  s.window.taken.length = s.window.space

/-- What a task relies on. -/
def Ready (capacity : Nat) (s : Scan feed) : Prop :=
  match s.task with
  | .look => True
  | .ask => s.window.room ≠ 0 ∧ s.window.current? = none ∧ s.window.ended = false
  | .mark b => s.window.current? = some b ∧ s.inWord = false
  | .pass b => s.window.current? = some b ∧ (isBrace b = true → s.window.taken = [])
  | .give => s.window.taken.length ≤ capacity
  | .finish => s.window.taken.length ≤ capacity
  | .stop fault => fault = .limitCheck ↔ s.Full

/-- **The invariant**, for words of up to `capacity` bytes. -/
structure Sound (capacity : Nat) (s : Scan feed) : Prop where
  window : s.window.Sound capacity
  bytes : s.passed ++ s.window.kept = s.received
  inWord : s.inWord = s.window.mark.isSome
  ready : s.Ready capacity

variable {capacity : Nat} {s : Scan feed}

theorem not_full_of_length_le (h : s.window.Sound capacity) (hlen : s.window.taken.length ≤ capacity) : ¬s.Full :=
  fun hfull => absurd ((Window.taken_length_eq_space_iff h).mp hfull) (Nat.not_lt.mpr hlen)

/-- What comes after the end of the data relies on the window not being full. -/
theorem ready_atEnd (htask : s.task = atEnd s.inWord) (hlen : s.window.taken.length ≤ capacity) :
    s.Ready capacity := by
  unfold Ready
  rw [htask]
  cases s.inWord with
  | true => exact hlen
  | false => exact hlen

namespace Sound

theorem mark_eq_none (h : s.Sound capacity) (hword : s.inWord = false) : s.window.mark = none := by
  simpa [hword] using h.inWord

theorem mark_isSome (h : s.Sound capacity) (hword : s.inWord = true) : s.window.mark.isSome = true :=
  h.inWord.symm.trans hword

/-- Once the data has ended a place in the window is free. -/
theorem length_le_of_ended (h : s.Sound capacity) (hend : s.window.ended = true) :
    s.window.taken.length ≤ capacity := by
  have := Window.taken_length h.window
  have := h.window.ended_lt hend
  have := h.window.cursor_le
  have := h.window.space_eq
  omega

theorem look (h : s.Sound capacity) : s.look.Sound capacity := by
  unfold Scan.look
  split
  · next b hb =>
    refine ⟨h.window, h.bytes, h.inWord, ?_⟩
    unfold Scan.onByte
    cases hword : s.inWord with
    | true =>
      by_cases hends : endsWord b = true
      · rw [if_pos rfl, if_pos hends]
        exact Window.taken_length_le h.window hb
      · rw [if_pos rfl, if_neg hends]
        exact ⟨hb, fun hbrace => absurd hbrace (not_isBrace_of_not_endsWord hends)⟩
    | false =>
      by_cases hblank : isBlank b = true
      · rw [if_neg Bool.false_ne_true, if_pos hblank]
        exact ⟨hb, fun _ => Window.taken_eq_nil (h.mark_eq_none hword)⟩
      · rw [if_neg Bool.false_ne_true, if_neg hblank]
        exact ⟨hb, rfl⟩
  · next hnone =>
    split
    · next hend =>
      exact ⟨h.window, h.bytes, h.inWord, ready_atEnd rfl (h.length_le_of_ended hend)⟩
    · next hend =>
      have hcompact := Window.compact_sound h.window
      have hbehind := Window.current_compact_of_not_current hnone
      refine ⟨hcompact, ?_, h.inWord.trans Option.isSome_map.symm, ?_⟩
      · rw [← h.bytes]
        exact congrArg (s.passed ++ ·) (Window.kept_compact _)
      · by_cases hroom : s.window.compact.room = 0
        · rw [if_pos hroom]
          refine ⟨fun _ => ?_, fun _ => rfl⟩
          show s.window.compact.taken.length = s.window.space
          rw [Window.taken_compact h.window]
          exact (Window.room_compact_eq_zero_iff h.window hnone).mp hroom
        · rw [if_neg hroom]
          exact ⟨hroom, hbehind, Bool.eq_false_iff.mpr hend⟩

theorem ask (h : s.Sound capacity) (htask : s.task = .ask) : s.ask.Sound capacity := by
  have hready := h.ready
  simp only [Ready, htask] at hready
  obtain ⟨hroom, hbehind, hopen⟩ := hready
  have hlen := Window.taken_length_le_of_room h.window hroom
  unfold Scan.ask
  split
  · exact ⟨Window.finish_sound h.window hroom, h.bytes, h.inWord, ready_atEnd rfl hlen⟩
  · next bytes source _ hread =>
    refine ⟨Window.receive_sound h.window hopen (feed.length_le hread), ?_, h.inWord, trivial⟩
    show s.passed ++ (s.window.receive bytes).kept = s.received ++ bytes
    rw [← h.bytes, List.append_assoc, Window.kept_receive h.window]
  · exact ⟨h.window, h.bytes, h.inWord, by
      simp only [Ready, htask]
      exact ⟨hroom, hbehind, hopen⟩⟩
  · exact ⟨h.window, h.bytes, h.inWord, nofun, fun hfull => absurd hfull (not_full_of_length_le h.window hlen)⟩

theorem mark {b : UInt8} (h : s.Sound capacity) (hb : s.window.current? = some b) (hword : s.inWord = false) :
    (s.mark b).Sound capacity := by
  have hwindow := Window.startWord_sound h.window
  have htaken : s.window.startWord.taken = [] := by
    apply List.eq_nil_of_length_eq_zero
    rw [Window.taken_length hwindow]
    exact Nat.sub_self _
  refine ⟨hwindow, ?_, rfl, hb, fun _ => htaken⟩
  show s.passed ++ s.window.startWord.kept = s.received
  rw [Window.kept_startWord (h.mark_eq_none hword), h.bytes]

/-- With a place for a word of one byte. -/
theorem pass {b : UInt8} (hc : 1 ≤ capacity) (h : s.Sound capacity) (hb : s.window.current? = some b)
    (hbrace : isBrace b = true → s.window.taken = []) : (s.pass b).Sound capacity := by
  refine ⟨Window.advance_sound h.window hb, ?_, h.inWord, ?_⟩
  · show (if s.inWord then s.passed else s.passed ++ [b]) ++ s.window.advance.kept = s.received
    rw [← h.bytes]
    cases hword : s.inWord with
    | true =>
      -- the byte stays in view as part of the word
      exact congrArg (s.passed ++ ·) (Window.kept_advance_of_marked (h.mark_isSome hword))
    | false =>
      show s.passed ++ [b] ++ s.window.advance.kept = s.passed ++ s.window.kept
      rw [Window.kept_advance_of_not_marked (h.mark_eq_none hword) hb, List.append_assoc]
      rfl
  · unfold Ready Scan.pass
    by_cases hb' : isBrace b = true
    · rw [if_pos hb']
      calc s.window.advance.taken.length
          ≤ s.window.taken.length + 1 := Window.taken_length_advance_le h.window hb
        _ = 1 := by rw [hbrace hb']; rfl
        _ ≤ capacity := hc
    · rw [if_neg hb']
      trivial

theorem give (h : s.Sound capacity) : s.give.Sound capacity := by
  refine ⟨Window.takeWord_sound h.window, ?_, rfl, trivial⟩
  show s.passed ++ s.window.takeWord.1 ++ s.window.takeWord.2.kept = s.received
  rw [← h.bytes, ← Window.kept_takeWord h.window, List.append_assoc]

/-- **Every step** keeps the invariant. -/
theorem step (hc : 1 ≤ capacity) (h : s.Sound capacity) : s.step.Sound capacity := by
  have hready := h.ready
  unfold Ready at hready
  unfold Scan.step
  split
  · exact h.look
  · next htask => exact h.ask htask
  · next b htask =>
    rw [htask] at hready
    exact h.mark hready.1 hready.2
  · next b htask =>
    rw [htask] at hready
    exact h.pass hc hready.1 hready.2
  · exact h.give
  · exact ⟨h.window, h.bytes, h.inWord, trivial⟩
  · exact h

end Sound

theorem Sound.iterate (hc : 1 ≤ capacity) (h : s.Sound capacity) (n : Nat) : (Scan.step^[n] s).Sound capacity := by
  induction n with
  | zero => exact h
  | succ n ih =>
    rw [Function.iterate_succ_apply']
    exact ih.step hc

theorem start_sound (feed : Feed) {capacity : Nat} (hwraps : ¬Window.Wraps capacity) (source : feed.State) :
    (start feed capacity source).Sound (max capacity 1) :=
  ⟨Window.ofCapacity_sound hwraps, rfl, rfl, trivial⟩

/-- **The invariant at every moment** of every reading. -/
theorem moment_sound (feed : Feed) {capacity : Nat} (hwraps : ¬Window.Wraps capacity) (source : feed.State)
    (n : Nat) : (moment feed capacity source n).Sound (max capacity 1) :=
  (start_sound feed hwraps source).iterate (Nat.le_max_right _ _) n

/-! ## The end of the data, and words that are too long -/

theorem ended_step (h : s.window.ended = true) : s.step.window.ended = true := by
  unfold step look ask
  split
  · split
    · exact h
    · rw [if_pos h]
      exact h
  · split <;> first | rfl | exact h
  all_goals exact h

theorem ended_iterate (h : s.window.ended = true) (n : Nat) : (step^[n] s).window.ended = true := by
  induction n with
  | zero => exact h
  | succ n ih =>
    rw [Function.iterate_succ_apply']
    exact ended_step ih

/-- The next step is a read, and it brings nothing. -/
def MeetsEnd (s : Scan feed) : Prop :=
  s.task = .ask ∧ ∃ source, feed.read s.window.room s.source = (.received [], source)

theorem MeetsEnd.ended_step (h : s.MeetsEnd) : s.step.window.ended = true := by
  obtain ⟨htask, source, hread⟩ := h
  simp [step, htask, ask, hread, Window.finish]

/-- **No read after the end.** A read that brings nothing is the last one. -/
theorem not_ask_of_meetsEnd (hwraps : ¬Window.Wraps capacity) {source : feed.State} {m n : Nat} (hlt : m < n)
    (h : (moment feed capacity source m).MeetsEnd) : (moment feed capacity source n).task ≠ .ask := by
  intro htask
  have hended : (moment feed capacity source n).window.ended = true := by
    rw [moment, ← Nat.sub_add_cancel (Nat.succ_le_of_lt hlt), Function.iterate_add_apply,
      Function.iterate_succ_apply']
    exact ended_iterate h.ended_step _
  have hready := (moment_sound feed hwraps source n).ready
  simp only [Ready, htask] at hready
  exact Bool.false_ne_true (hready.2.2.symm.trans hended)

theorem onByte_ne_stop (inWord : Bool) (b : UInt8) (fault : Fault) : onByte inWord b ≠ .stop fault := by
  unfold onByte
  split <;> split <;> nofun

theorem atEnd_ne_stop (inWord : Bool) (fault : Fault) : atEnd inWord ≠ .stop fault := by
  unfold atEnd
  split <;> nofun

theorem look_stop_iff (h : s.Sound capacity) : s.look.task = .stop .limitCheck ↔ s.Full := by
  unfold look
  split
  · next b hb =>
    exact iff_of_false (onByte_ne_stop _ _ _) (not_full_of_length_le h.window (Window.taken_length_le h.window hb))
  · next hnone =>
    have hfull : s.window.compact.room = 0 ↔ s.Full := Window.room_compact_eq_zero_iff h.window hnone
    split
    · next hend => exact iff_of_false (atEnd_ne_stop _ _) (not_full_of_length_le h.window (h.length_le_of_ended hend))
    · rw [← hfull]
      by_cases hroom : s.window.compact.room = 0
      · exact iff_of_true (if_pos hroom) hroom
      · refine iff_of_false ?_ hroom
        rw [if_neg hroom]
        nofun

theorem ask_ne_stop (s : Scan feed) (htask : s.task = .ask) : s.ask.task ≠ .stop .limitCheck := by
  unfold ask
  split
  · exact atEnd_ne_stop _ _
  · nofun
  · rw [htask]
    nofun
  · nofun

theorem pass_ne_stop (s : Scan feed) (b : UInt8) (fault : Fault) : (s.pass b).task ≠ .stop fault := by
  unfold pass
  cases isBrace b <;> nofun

/-- **Words that are too long.** The next step finds the word in progress too long where it fills the window, and
nowhere else. -/
theorem Sound.step_stop_iff (h : s.Sound capacity) : s.step.task = .stop .limitCheck ↔ s.Full := by
  have hready := h.ready
  unfold Ready at hready
  unfold Scan.step
  split
  · exact look_stop_iff h
  · next htask =>
    rw [htask] at hready
    have hlen := Window.taken_length_le_of_room h.window hready.1
    exact iff_of_false (ask_ne_stop s htask) (not_full_of_length_le h.window hlen)
  · next htask =>
    rw [htask] at hready
    exact iff_of_false nofun (not_full_of_length_le h.window (Window.taken_length_le h.window hready.1))
  · next b htask =>
    rw [htask] at hready
    exact iff_of_false (pass_ne_stop s b _)
      (not_full_of_length_le h.window (Window.taken_length_le h.window hready.1))
  · next htask =>
    rw [htask] at hready
    exact iff_of_false nofun (not_full_of_length_le h.window hready)
  · next htask =>
    rw [htask] at hready
    exact iff_of_false nofun (not_full_of_length_le h.window hready)
  · next fault htask =>
    rw [htask] at hready
    rw [htask, Task.stop.injEq]
    exact hready

/-! ## What the steps come to -/

/-- After some steps the reading is as `P` says. -/
def Eventually (P : Scan feed → Prop) (s : Scan feed) : Prop :=
  ∃ n, P (step^[n] s)

namespace Eventually

variable {P Q : Scan feed → Prop}

theorem now (h : P s) : s.Eventually P :=
  ⟨0, h⟩

theorem imp (h : s.Eventually P) (himp : ∀ t : Scan feed, P t → Q t) : s.Eventually Q := by
  obtain ⟨n, h⟩ := h
  exact ⟨n, himp _ h⟩

theorem next (h : s.step.Eventually P) : s.Eventually P := by
  obtain ⟨n, h⟩ := h
  exact ⟨n + 1, h⟩

theorem bind (hc : 1 ≤ capacity) (hs : s.Sound capacity) (h : s.Eventually P)
    (h' : ∀ t : Scan feed, t.Sound capacity → P t → t.Eventually Q) : s.Eventually Q := by
  obtain ⟨n, hn⟩ := h
  obtain ⟨m, hm⟩ := h' _ (hs.iterate hc n) hn
  refine ⟨m + n, ?_⟩
  rw [Function.iterate_add_apply]
  exact hm

end Eventually

section Source

variable {s : Scan Source.feed} {r : Reader} {task : Task} {inWord : Bool} {words : List Word}

/-- The reader that a reading of a source has. -/
def reader (s : Scan Source.feed) : Reader :=
  ⟨s.window, s.source⟩

/-- A place in the reading: the reader, the task, whether a word is in progress, and the words given out. -/
structure At (r : Reader) (task : Task) (inWord : Bool) (words : List Word) (s : Scan Source.feed) : Prop where
  reader : s.reader = r
  task : s.task = task
  inWord : s.inWord = inWord
  words : s.words = words

/-- The reading has ended with the words given out, at a fault or at the end of the data. -/
structure Over (fault : Option Fault) (words : List Word) (s : Scan Source.feed) : Prop where
  task : s.task = match fault with
    | none => .finish
    | some f => .stop f
  words : s.words = words

theorem At.mark {b : UInt8} (h : s.At r (.mark b) inWord words) : s.step.At r.startWord (.pass b) true words := by
  obtain ⟨rfl, htask, rfl, rfl⟩ := h
  simp only [step, htask]
  exact ⟨rfl, rfl, rfl, rfl⟩

theorem At.pass {b : UInt8} (h : s.At r (.pass b) inWord words) :
    s.step.At r.advance (if isBrace b then .give else .look) inWord words := by
  obtain ⟨rfl, htask, rfl, rfl⟩ := h
  simp only [step, htask]
  exact ⟨rfl, rfl, rfl, rfl⟩

theorem At.give (h : s.At r .give inWord words) : s.step.At r.takeWord.2 .look false (r.takeWord.1 :: words) := by
  obtain ⟨rfl, htask, rfl, rfl⟩ := h
  simp only [step, htask]
  exact ⟨rfl, rfl, rfl, rfl⟩

/-- One wait is some reads. -/
theorem eventually_await (h : s.At r .ask inWord words) :
    s.Eventually fun t =>
      match r.source.await r.window.room with
      | (.ok [], source) => t.At ⟨r.window.finish, source⟩ (atEnd inWord) inWord words
      | (.ok bytes, source) => t.At ⟨r.window.receive bytes, source⟩ .look inWord words
      | (.error reason, _) => t.Over (some (.unreadable reason)) words := by
  obtain ⟨rfl, htask, rfl, rfl⟩ := h
  obtain ⟨window, source, task, inWord, received, passed, words⟩ := s
  subst htask
  simp only [reader]
  -- on the reads: an interruption uses itself up, and the reading stays where it is
  fun_induction Source.await window.room source with
  | case1 source bytes source' hread =>
    apply Eventually.next
    simp only [step, ask, hread]
    cases bytes with
    | nil => exact .now ⟨rfl, rfl, rfl, rfl⟩
    | cons b bs => exact .now ⟨rfl, rfl, rfl, rfl⟩
  | case2 source reason source' hread =>
    apply Eventually.next
    simp only [step, ask, hread]
    exact .now ⟨rfl, rfl⟩
  | case3 source source' hread ih =>
    apply Eventually.next
    simp only [step, ask, hread]
    exact ih

variable (hc : 1 ≤ capacity) (hs : s.Sound capacity)

include hc hs

/-- Looking at the next byte. -/
theorem eventually_peek (h : s.At r .look inWord words) :
    s.Eventually fun t =>
      match r.peek with
      | .ok (some b, r') => t.At r' (onByte inWord b) inWord words
      | .ok (none, r') => t.At r' (atEnd inWord) inWord words
      | .error f => t.Over (some f) words := by
  obtain ⟨rfl, htask, rfl, rfl⟩ := h
  have hsound : s.look.Sound capacity := hs.look
  apply Eventually.next
  simp only [step, htask]
  unfold look at hsound ⊢
  cases hb : s.window.current? with
  | some b =>
    have hpeek : s.reader.peek = .ok (some b, s.reader) := by simp [Reader.peek, reader, hb]
    simp only [hpeek]
    exact .now ⟨rfl, rfl, rfl, rfl⟩
  | none =>
    by_cases hend : s.window.ended = true
    · have hpeek : s.reader.peek = .ok (none, s.reader) := by
        simp [Reader.peek, Reader.refill, reader, hb, hend, Except.map]
      simp only [hpeek, if_pos hend]
      exact .now ⟨rfl, rfl, rfl, rfl⟩
    by_cases hroom : s.window.compact.room = 0
    · have hpeek : s.reader.peek = .error .limitCheck := by
        simp [Reader.peek, Reader.refill, reader, hb, hend, hroom, Except.map]
      simp only [hpeek, if_neg hend, if_pos hroom]
      exact .now ⟨rfl, rfl⟩
    simp only [hb, if_neg hend, if_neg hroom] at hsound ⊢
    refine (eventually_await ⟨rfl, rfl, rfl, rfl⟩).bind hc hsound fun t ht hawait => ?_
    simp only [reader] at hawait
    generalize hreply : s.source.await s.window.compact.room = reply at hawait
    obtain ⟨result, source⟩ := reply
    cases result with
    | error reason =>
      have hpeek : s.reader.peek = .error (.unreadable reason) := by
        simp [Reader.peek, Reader.refill, reader, hb, hend, hroom, hreply, Except.map]
      rw [hpeek]
      exact .now hawait
    | ok bytes =>
      cases bytes with
      | nil =>
        have hnone : s.window.compact.finish.current? = none := Window.current_compact_of_not_current hb
        have hpeek : s.reader.peek = .ok (none, ⟨s.window.compact.finish, source⟩) := by
          simp [Reader.peek, Reader.refill, reader, hb, hend, hroom, hreply, hnone, Except.map]
        rw [hpeek]
        exact .now hawait
      | cons b bs =>
        -- the first of the bytes that have come is the one at the cursor
        have hb' : (s.window.compact.receive (b :: bs)).current? = some b :=
          Window.current_receive hsound.window (Window.current_compact_of_not_current hb) b bs
        have hpeek : s.reader.peek = .ok (some b, ⟨s.window.compact.receive (b :: bs), source⟩) := by
          simp [Reader.peek, Reader.refill, reader, hb, hend, hroom, hreply, hb', Except.map]
        rw [hpeek]
        obtain ⟨hreader, htask', hword, hwords⟩ := hawait
        have hcur : t.window.current? = some b := by
          rw [← hb']
          exact congrArg (Window.current? ∘ Reader.window) hreader
        apply Eventually.next
        simp only [step, htask', look, hcur]
        exact .now ⟨hreader, by rw [hword], hword, hwords⟩

/-- Passing over blanks. -/
theorem eventually_skipBlanks (h : s.At r .look false words) :
    s.Eventually fun t =>
      match r.skipBlanks with
      | .ok (some b, r') => t.At r' (.mark b) false words
      | .ok (none, r') => t.At r' .finish false words
      | .error f => t.Over (some f) words := by
  fun_induction Reader.skipBlanks r generalizing s with
  | case1 r f hp =>
    refine (eventually_peek hc hs h).imp fun t hpeek => ?_
    rw [hp] at hpeek
    exact hpeek
  | case2 r r' hp =>
    refine (eventually_peek hc hs h).imp fun t hpeek => ?_
    rw [hp] at hpeek
    exact hpeek
  | case3 r b r' hp hblank ih =>
    refine (eventually_peek hc hs h).bind hc hs fun t ht hpeek => ?_
    simp only [hp, onByte, hblank, Bool.false_eq_true, if_false, if_true] at hpeek
    have hpass := hpeek.pass
    rw [if_neg (by simp [not_isBrace_of_isBlank hblank])] at hpass
    exact .next (ih (ht.step hc) hpass)
  | case4 r b r' hp hblank =>
    refine (eventually_peek hc hs h).imp fun t hpeek => ?_
    simp only [hp, onByte, hblank, Bool.false_eq_true, if_false] at hpeek
    exact hpeek

/-- Finishing the word in progress. -/
theorem eventually_finishWord (h : s.At r .look true words) :
    s.Eventually fun t =>
      match r.finishWord with
      | .ok (w, r') => t.At r' .look false (w :: words)
      | .error f => t.Over (some f) words := by
  fun_induction Reader.finishWord r generalizing s with
  | case1 r f hp =>
    refine (eventually_peek hc hs h).imp fun t hpeek => ?_
    rw [hp] at hpeek
    exact hpeek
  | case2 r r' hp =>
    refine (eventually_peek hc hs h).bind hc hs fun t _ hpeek => ?_
    rw [hp] at hpeek
    exact .next (.now hpeek.give)
  | case3 r b r' hp hends =>
    refine (eventually_peek hc hs h).bind hc hs fun t _ hpeek => ?_
    simp only [hp, onByte, hends, if_true] at hpeek
    exact .next (.now hpeek.give)
  | case4 r b r' hp hends ih =>
    refine (eventually_peek hc hs h).bind hc hs fun t ht hpeek => ?_
    simp only [hp, onByte, hends, Bool.false_eq_true, if_false, if_true] at hpeek
    have hpass := hpeek.pass
    rw [if_neg (not_isBrace_of_not_endsWord hends)] at hpass
    exact .next (ih (ht.step hc) hpass)

/-- The next word. -/
theorem eventually_nextWord (h : s.At r .look false words) :
    s.Eventually fun t =>
      match r.nextWord? with
      | .ok (some (w, r')) => t.At r' .look false (w :: words)
      | .ok none => t.Over none words
      | .error f => t.Over (some f) words := by
  refine (eventually_skipBlanks hc hs h).bind hc hs fun t ht hskip => ?_
  unfold Reader.nextWord?
  generalize r.skipBlanks = skipped at hskip ⊢
  match skipped with
  | .error f => exact .now hskip
  | .ok (none, _) => exact .now ⟨hskip.task, hskip.words⟩
  | .ok (some b, r') =>
    have hpass := hskip.mark.pass
    have hpass_sound := (ht.step hc).step hc
    apply Eventually.next
    apply Eventually.next
    by_cases hbrace : isBrace b = true
    · simp only [hbrace, if_true] at hpass ⊢
      exact .next (.now hpass.give)
    · simp only [hbrace, Bool.false_eq_true, if_false] at hpass ⊢
      refine (eventually_finishWord hc hpass_sound hpass).imp fun t' hfinish => ?_
      generalize r'.startWord.advance.finishWord = finished at hfinish ⊢
      cases finished with
      | error f => exact hfinish
      | ok p => exact hfinish

/-- All words still to come. -/
theorem eventually_transcriptAfter (h : s.At r .look false words) :
    s.Eventually (Over (r.transcriptAfter words).fault (r.transcriptAfter words).words.reverse) := by
  -- on the reading: every word leaves a reader with less to come
  fun_induction Reader.transcriptAfter words r generalizing s with
  | case1 words r f hn =>
    refine (eventually_nextWord hc hs h).imp fun t hnext => ?_
    rw [hn] at hnext
    rw [List.reverse_reverse]
    exact hnext
  | case2 words r hn =>
    refine (eventually_nextWord hc hs h).imp fun t hnext => ?_
    rw [hn] at hnext
    rw [List.reverse_reverse]
    exact hnext
  | case3 words r w r' hn ih =>
    refine (eventually_nextWord hc hs h).bind hc hs fun t ht hnext => ?_
    rw [hn] at hnext
    exact ih ht hnext

end Source

/-- **The steps come to the transcript** of the reader. -/
theorem moment_transcript {capacity : Nat} (hwraps : ¬Window.Wraps capacity) (source : Source) :
    ∃ n, (moment Source.feed capacity source n).Over
      (Reader.ofSource capacity source).transcript.fault
      (Reader.ofSource capacity source).transcript.words.reverse :=
  eventually_transcriptAfter (Nat.le_max_right capacity 1) (start_sound Source.feed hwraps source)
    ⟨rfl, rfl, rfl, rfl⟩

/-! ## The whole reading -/

theorem received_ask (s : Scan Source.feed) :
    s.ask.received ++ s.ask.source.bytes = s.received ++ s.source.bytes := by
  unfold ask
  split
  · next hread => exact congrArg (s.received ++ ·) (Source.read_bytes hread).1
  · next hread =>
    rw [List.append_assoc]
    exact congrArg (s.received ++ ·) (Source.read_bytes hread).1
  · next hread => exact congrArg (s.received ++ ·) (Source.read_bytes hread).1
  · next hread => exact congrArg (s.received ++ ·) (Source.read_bytes hread).1

theorem received_step (s : Scan Source.feed) :
    s.step.received ++ s.step.source.bytes = s.received ++ s.source.bytes := by
  unfold step
  split
  · unfold look
    split
    · rfl
    · split <;> rfl
  · exact received_ask s
  all_goals rfl

/-- What has come from a source, and what it still has, are all its bytes. -/
theorem received_moment (capacity : Nat) (source : Source) (n : Nat) :
    (moment Source.feed capacity source n).received ++
      (moment Source.feed capacity source n).source.bytes = source.bytes := by
  induction n with
  | zero => rfl
  | succ n ih =>
    rw [moment, Function.iterate_succ_apply', received_step]
    exact ih

/-- Everything is in its place, for words of up to `capacity` bytes and of one byte in any case: the marks of the
window; the bytes, of which those passed and those kept are all that have come; the byte that is passed, which is
in view; the read, which finds nothing in view and a place free. And the next step finds the word in progress too
long where it fills the window, and nowhere else. -/
structure InOrder (capacity : Nat) (s : Scan feed) : Prop where
  space_eq : s.window.space = max capacity 1 + 1
  mark_le : ∀ m, s.window.mark = some m → m ≤ s.window.cursor
  cursor_le : s.window.cursor ≤ s.window.held.size
  held_le : s.window.held.size ≤ s.window.space
  bytes : s.passed ++ s.window.held.toList.drop (s.window.mark.getD s.window.cursor) = s.received
  pass : ∀ b, s.task = .pass b → s.window.cursor < s.window.held.size
  ask : s.task = .ask → s.window.cursor = s.window.held.size ∧ s.window.held.size < s.window.space
  limit : s.step.task = .stop .limitCheck ↔ s.Full

theorem Sound.inOrder (h : s.Sound (max capacity 1)) : s.InOrder capacity where
  space_eq := h.window.space_eq
  mark_le m hm := by
    have hle := h.window.needed_le
    rw [Window.needed, hm] at hle
    exact hle
  cursor_le := h.window.cursor_le
  held_le := h.window.held_le
  bytes := h.bytes
  pass b htask := by
    have hready := h.ready
    rw [Ready, htask] at hready
    exact Window.cursor_lt_of_current hready.1
  ask htask := by
    have hready := h.ready
    rw [Ready, htask] at hready
    exact ⟨Window.cursor_eq_of_not_current h.window hready.2.1, Nat.lt_of_sub_ne_zero hready.1⟩
  limit := h.step_stop_iff

end Scan

/-- **The reading is in order.** With a buffer that memory can hold, whatever is read from, everything is in its
place at every moment of the reading, and nothing is read after the end of the data. What is passed, what is kept
and what a source still has are all its bytes; and the steps come to the words and the fault of its transcript. -/
theorem reading_inOrder (capacity : Nat) (hbuffer : Window.Fits capacity) :
    (∀ (feed : Feed) (source : feed.State),
      (∀ n, (Scan.moment feed capacity source n).InOrder capacity) ∧
      ∀ m n, m < n → (Scan.moment feed capacity source m).MeetsEnd →
        (Scan.moment feed capacity source n).task ≠ .ask) ∧
    ∀ source : Source,
      (∀ n, (Scan.moment Source.feed capacity source n).passed ++
        (Scan.moment Source.feed capacity source n).window.kept ++
        (Scan.moment Source.feed capacity source n).source.bytes = source.bytes) ∧
      ∃ n, (Scan.moment Source.feed capacity source n).Over
        (Reader.ofSource capacity source).transcript.fault
        (Reader.ofSource capacity source).transcript.words.reverse := by
  have hwraps := hbuffer.not_wraps
  refine ⟨fun feed source => ⟨fun n => ?_, fun m n hlt => ?_⟩, fun source => ⟨fun n => ?_, ?_⟩⟩
  · exact (Scan.moment_sound feed hwraps source n).inOrder
  · exact Scan.not_ask_of_meetsEnd hwraps hlt
  · rw [(Scan.moment_sound Source.feed hwraps source n).bytes]
    exact Scan.received_moment capacity source n
  · exact Scan.moment_transcript hwraps source

/-- Of a source with one brace the eighth step is the read that brings nothing, and the next step is none. -/
theorem reading_inOrder_brace :
    Window.Fits 1 ∧ 7 < 8 ∧ (Scan.moment Source.feed 1 (.ofBytes [0x7B]) 7).MeetsEnd ∧
      (Scan.moment Source.feed 1 (.ofBytes [0x7B]) 8).task ≠ .ask := by
  have hlast : (Scan.moment Source.feed 1 (.ofBytes [0x7B]) 7).MeetsEnd := ⟨rfl, _, rfl⟩
  exact ⟨by decide, by decide, hlast,
    ((reading_inOrder 1 (by decide)).1 Source.feed (.ofBytes [0x7B])).2 7 8 (by decide) hlast⟩

/-- For words as long as the largest machine word the length of the buffer wraps round. Of `{}` no byte is read: the
first look stops the reading, with no word in progress. -/
theorem not_reading_inOrder_largest :
    (¬∀ n, (Scan.moment Source.feed 0xFFFFFFFFFFFFFFFF (.ofBytes [0x7B, 0x7D]) n).InOrder 0xFFFFFFFFFFFFFFFF) ∧
      (Scan.moment Source.feed 0xFFFFFFFFFFFFFFFF (.ofBytes [0x7B, 0x7D]) 1).task = .stop .limitCheck ∧
      (Scan.moment Source.feed 0xFFFFFFFFFFFFFFFF (.ofBytes [0x7B, 0x7D]) 1).inWord = false := by
  refine ⟨fun h => ?_, rfl, rfl⟩
  have hspace := (h 0).space_eq
  exact absurd hspace (by decide)

end TypeFour
