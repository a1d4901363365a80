import TypeFour.Fault
import TypeFour.Source
import TypeFour.Window

/-!
# `TypeFour.Reader` — the words of a program

A reader looks at a source through a window, and parts what it sees into words. It asks the source
for more only when the cursor has passed everything in view, and never again once the data has
ended. A word that fills the whole window is too long; blanks may go on for ever.

## Contents
- `Reader` — a window and the source behind it.
- `refill`, `peek` — bringing the next byte into view.
- `nextWord?` — the next word.
- `Transcript`, `Reader.transcript` — all words, and the fault that stopped the reading.
-/

namespace TypeFour

/-- A source seen through a window. -/
structure Reader where
  window : Window
  source : Source

namespace Reader

/-- A reader at the beginning of a source, for words of up to `capacity` bytes. -/
def ofSource (capacity : Nat) (source : Source) : Reader where
  window := .ofCapacity capacity
  source := source

/-- How many bytes the reader has not passed yet. -/
def size (r : Reader) : Nat :=
  r.window.ahead + r.source.size

/-! ## Bytes -/

/-- Takes in more bytes, unless the data has ended. -/
def refill (r : Reader) : Except Fault Reader :=
  if r.window.ended then .ok r
  else
    let window := r.window.compact
    if window.room = 0 then .error .limitCheck
    else
      match r.source.await window.room with
      | (.error reason, _) => .error (.unreadable reason)
      | (.ok [], source) => .ok ⟨window.finish, source⟩
      | (.ok bytes, source) => .ok ⟨window.receive bytes, source⟩

/-- The byte at the cursor, brought into view if need be; none at the end of the data. -/
def peek (r : Reader) : Except Fault (Option UInt8 × Reader) :=
  match r.window.current? with
  | some b => .ok (some b, r)
  | none => r.refill.map fun r' => (r'.window.current?, r')

/-- Steps past the byte at the cursor. -/
def advance (r : Reader) : Reader :=
  { r with window := r.window.advance }

/-- Begins a word at the cursor. -/
def startWord (r : Reader) : Reader :=
  { r with window := r.window.startWord }

/-- Ends the word in progress before the cursor. -/
def takeWord (r : Reader) : Word × Reader :=
  let (w, window) := r.window.takeWord
  (w, { r with window })

theorem size_refill_le {r r' : Reader} (h : r.refill = .ok r') : r'.size ≤ r.size := by
  have hc := r.window.ahead_compact
  simp only [refill] at h
  split at h
  · simp only [Except.ok.injEq] at h; simp [← h]
  · split at h
    · simp at h
    · split at h
      · simp at h
      · next hs =>
        have := Source.await_size hs
        simp only [Except.ok.injEq] at h
        simp only [← h, size]
        simp only [Window.finish, Window.ahead, List.length_nil] at hc this ⊢
        omega
      · next bytes _ _ hs =>
        have := Source.await_size hs
        have := r.window.compact.ahead_receive bytes
        simp only [Except.ok.injEq] at h
        simp only [← h, size]
        omega

theorem size_peek_le {r r' : Reader} {b : Option UInt8} (h : r.peek = .ok (b, r')) :
    r'.size ≤ r.size := by
  simp only [peek] at h
  split at h
  · simp only [Except.ok.injEq, Prod.mk.injEq] at h; simp [← h.2]
  · cases hr : r.refill with
    | error f => simp [hr, Except.map] at h
    | ok r₁ =>
      simp only [hr, Except.map, Except.ok.injEq, Prod.mk.injEq] at h
      exact h.2 ▸ size_refill_le hr

theorem current_of_peek {r r' : Reader} {b : UInt8} (h : r.peek = .ok (some b, r')) :
    r'.window.current? = some b := by
  simp only [peek] at h
  split at h
  · next hb =>
    simp only [Except.ok.injEq, Prod.mk.injEq, Option.some.injEq] at h
    rw [← h.2, hb, h.1]
  · cases hr : r.refill with
    | error f => simp [hr, Except.map] at h
    | ok r₁ =>
      simp only [hr, Except.map, Except.ok.injEq, Prod.mk.injEq] at h
      rw [← h.2, h.1]

/-- A step past a byte that was seen leaves fewer bytes. -/
theorem size_advance_lt {r r' : Reader} {b : UInt8} (h : r.peek = .ok (some b, r')) :
    r'.advance.size < r.size := by
  have := Window.ahead_advance_lt (current_of_peek h)
  have := size_peek_le h
  simp only [size, advance] at *
  omega

@[simp] theorem size_startWord (r : Reader) : r.startWord.size = r.size := rfl

@[simp] theorem size_takeWord (r : Reader) : r.takeWord.2.size = r.size := rfl

/-! ## Words -/

/-- Passes over blanks, up to a byte that is none or the end of the data. -/
def skipBlanks (r : Reader) : Except Fault (Option UInt8 × Reader) :=
  match _h : r.peek with
  | .error f => .error f
  | .ok (none, r') => .ok (none, r')
  | .ok (some b, r') => if isBlank b then r'.advance.skipBlanks else .ok (some b, r')
termination_by r.size
decreasing_by exact size_advance_lt ‹_›

/-- The rest of the word in progress, up to a byte that ends it or the end of the data. -/
def finishWord (r : Reader) : Except Fault (Word × Reader) :=
  match _h : r.peek with
  | .error f => .error f
  | .ok (none, r') => .ok r'.takeWord
  | .ok (some b, r') => if endsWord b then .ok r'.takeWord else r'.advance.finishWord
termination_by r.size
decreasing_by exact size_advance_lt ‹_›

/-- The next word, and the reader after it; none at the end of the data. -/
def nextWord? (r : Reader) : Except Fault (Option (Word × Reader)) :=
  match r.skipBlanks with
  | .error f => .error f
  | .ok (none, _) => .ok none
  | .ok (some b, r') =>
    let begun := r'.startWord.advance
    if isBrace b then .ok (some begun.takeWord) else begun.finishWord.map some

theorem size_skipBlanks_lt {r r' : Reader} {b : UInt8} (h : r.skipBlanks = .ok (some b, r')) :
    r'.advance.size < r.size := by
  fun_induction skipBlanks r with
  | case1 => simp at h
  | case2 => simp at h
  | case3 r b' r₁ hp _ ih => exact Nat.lt_trans (ih h) (size_advance_lt hp)
  | case4 r b' r₁ hp _ =>
    simp only [Except.ok.injEq, Prod.mk.injEq] at h
    exact h.2 ▸ size_advance_lt hp

theorem size_finishWord_le {r r' : Reader} {w : Word} (h : r.finishWord = .ok (w, r')) :
    r'.size ≤ r.size := by
  fun_induction finishWord r with
  | case1 => simp at h
  | case2 r r₁ hp =>
    simp only [Except.ok.injEq] at h
    have := size_peek_le hp
    rw [show r' = r₁.takeWord.2 by rw [h]]
    simpa using this
  | case3 r b r₁ hp _ =>
    simp only [Except.ok.injEq] at h
    have := size_peek_le hp
    rw [show r' = r₁.takeWord.2 by rw [h]]
    simpa using this
  | case4 r b r₁ hp _ ih => exact Nat.le_trans (ih h) (Nat.le_of_lt (size_advance_lt hp))

/-- Every word uses up at least one byte. -/
theorem size_nextWord_lt {r r' : Reader} {w : Word} (h : r.nextWord? = .ok (some (w, r'))) :
    r'.size < r.size := by
  simp only [nextWord?] at h
  split at h
  · simp at h
  · simp at h
  · next b r₁ hs =>
    have hlt : r₁.startWord.advance.size < r.size :=
      show r₁.advance.size < r.size from size_skipBlanks_lt hs
    split at h
    · simp only [Except.ok.injEq, Option.some.injEq] at h
      rw [show r' = r₁.startWord.advance.takeWord.2 by rw [h]]
      simpa using hlt
    · cases hf : r₁.startWord.advance.finishWord with
      | error f => simp [hf, Except.map] at h
      | ok p =>
        simp only [hf, Except.map, Except.ok.injEq, Option.some.injEq] at h
        subst h
        exact Nat.lt_of_le_of_lt (size_finishWord_le hf) hlt

end Reader

/-! ## All words -/

/-- The words of a program as far as they could be read, and the fault that stopped the reading
before the end of the data, if one did. -/
structure Transcript where
  words : List Word
  fault : Option Fault

namespace Reader

/-- The words still to come, after those in `earlier`, which has its latest word first. -/
def transcriptAfter (earlier : List Word) (r : Reader) : Transcript :=
  match _h : r.nextWord? with
  | .error f => ⟨earlier.reverse, some f⟩
  | .ok none => ⟨earlier.reverse, none⟩
  | .ok (some (w, r')) => r'.transcriptAfter (w :: earlier)
termination_by r.size
decreasing_by exact size_nextWord_lt ‹_›

/-- All words still to come. -/
def transcript (r : Reader) : Transcript :=
  r.transcriptAfter []

end Reader

end TypeFour
