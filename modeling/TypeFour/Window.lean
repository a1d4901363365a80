import TypeFour.Word

/-!
# `TypeFour.Window` — the bytes in view

A window holds the bytes read and not yet given up, in a buffer of fixed space. A cursor moves over
them, and while a word is in progress a mark keeps its first byte in view. Before more bytes come
in, those that nobody needs any longer are given up: everything before the mark, or before the
cursor when there is none.

The buffer has one byte more than the longest word admitted, so that the byte after such a word can
be looked at while the word is still in view. Its length is a machine word, and nobody checks the sum:
for words as long as the largest machine word it is zero, and the window has no room for any byte.

## Contents
- `Window`, `Window.ofCapacity`.
- `bufferLength`, `Wraps`, `Fits` — the length of the buffer, and whether there can be one so long.
- `current?`, `advance` — the byte at the cursor, and the step past it.
- `startWord`, `takeWord` — the mark.
- `compact`, `room`, `receive`, `finish` — taking bytes in.
- `ahead` — how many bytes in view are still to come.
-/

namespace TypeFour

/-- The bytes in view, with the places that matter among them. -/
structure Window where
  /-- How many bytes fit. -/
  space : Nat
  held : Array UInt8 := #[]
  cursor : Nat := 0
  mark : Option Nat := none
  /-- The end of the data has been met. -/
  ended : Bool := false

namespace Window

/-! ## The buffer -/

/-- The length of the buffer for words of up to `capacity` bytes, and of one byte in any case. The sum is
taken in one machine word. -/
def bufferLength (capacity : Nat) : UInt64 :=
  .ofNatClamp (max capacity 1) + 1

/-- An empty window for words of up to `capacity` bytes. -/
def ofCapacity (capacity : Nat) : Window where
  space := (bufferLength capacity).toNat

/-- The length of the buffer wraps round to nothing. -/
def Wraps (capacity : Nat) : Prop :=
  bufferLength capacity = 0

/-- The longest piece of memory there can be, in bytes. -/
def longestPiece : Nat := 0x7FFFFFFFFFFFFFFF

/-- There can be a buffer for words of up to `capacity` bytes with the one byte more. Of a buffer that is longer
than any piece of memory, and does not wrap round, nothing is said here: there is none to read through. -/
def Fits (capacity : Nat) : Prop :=
  max capacity 1 + 1 ≤ longestPiece

instance (capacity : Nat) : Decidable (Wraps capacity) :=
  inferInstanceAs (Decidable (_ = _))

instance (capacity : Nat) : Decidable (Fits capacity) :=
  inferInstanceAs (Decidable (_ ≤ _))

/-- Only the largest machine word has no successor. -/
theorem wraps_iff {capacity : Nat} : Wraps capacity ↔ UInt64.size ≤ max capacity 1 + 1 := by
  unfold Wraps bufferLength
  rw [← UInt64.toNat_inj, UInt64.toNat_add]
  rcases Nat.lt_or_ge (max capacity 1) UInt64.size with hlt | hge
  · rw [UInt64.toNat_ofNatClamp_of_lt hlt]
    simp only [UInt64.size, UInt64.toNat_one, UInt64.toNat_zero] at hlt ⊢
    omega
  · rw [UInt64.toNat_ofNatClamp_of_le hge]
    exact iff_of_true rfl (Nat.le_succ_of_le hge)

/-- Shorter words ask for a shorter buffer. -/
theorem Fits.of_le {capacity capacity' : Nat} (h : Fits capacity') (hle : capacity ≤ capacity') :
    Fits capacity := by
  unfold Fits at h ⊢
  omega

theorem Fits.not_wraps {capacity : Nat} (h : Fits capacity) : ¬Wraps capacity := by
  rw [wraps_iff]
  simp only [Fits, longestPiece, UInt64.size] at h ⊢
  omega

/-- Unless its length wraps round, the buffer has one byte more than the longest word. -/
theorem space_ofCapacity {capacity : Nat} (h : ¬Wraps capacity) :
    (ofCapacity capacity).space = max capacity 1 + 1 := by
  rw [wraps_iff, Nat.not_le] at h
  have hlt : max capacity 1 < UInt64.size := by omega
  show (bufferLength capacity).toNat = _
  rw [bufferLength, UInt64.toNat_add, UInt64.toNat_ofNatClamp_of_lt hlt, UInt64.toNat_one]
  exact Nat.mod_eq_of_lt h

theorem space_ofCapacity_of_wraps {capacity : Nat} (h : Wraps capacity) :
    (ofCapacity capacity).space = 0 :=
  congrArg UInt64.toNat h

/-! ## The bytes -/

/-- The byte at the cursor, if it is in view. -/
def current? (w : Window) : Option UInt8 :=
  w.held[w.cursor]?

/-- Steps past the byte at the cursor. -/
def advance (w : Window) : Window :=
  { w with cursor := w.cursor + 1 }

/-- Begins a word at the cursor. -/
def startWord (w : Window) : Window :=
  { w with mark := some w.cursor }

/-- The first place that is still needed. -/
def needed (w : Window) : Nat :=
  w.mark.getD w.cursor

/-- Ends the word in progress before the cursor: its bytes, and the window without the mark. -/
def takeWord (w : Window) : Word × Window :=
  ((w.held.extract w.needed w.cursor).toList, { w with mark := none })

/-- Gives up the bytes that nobody needs. -/
def compact (w : Window) : Window :=
  { w with
    held := w.held.extract w.needed w.held.size
    cursor := w.cursor - w.needed
    mark := w.mark.map (· - w.needed) }

/-- How many more bytes fit. -/
def room (w : Window) : Nat :=
  w.space - w.held.size

/-- Takes bytes in after those in view. -/
def receive (w : Window) (bytes : List UInt8) : Window :=
  { w with held := w.held ++ bytes.toArray }

/-- Notes the end of the data. -/
def finish (w : Window) : Window :=
  { w with ended := true }

/-! ## What is ahead -/

/-- How many bytes in view are at the cursor or after it. -/
def ahead (w : Window) : Nat :=
  w.held.size - w.cursor

theorem ahead_compact (w : Window) : w.compact.ahead ≤ w.ahead := by
  simp only [ahead, compact, Array.size_extract]
  omega

theorem ahead_receive (w : Window) (bytes : List UInt8) :
    (w.receive bytes).ahead ≤ w.ahead + bytes.length := by
  simp only [ahead, receive, Array.size_append, List.size_toArray]
  omega

/-- Stepping past a byte in view leaves one byte less ahead. -/
theorem ahead_advance_lt {w : Window} {b : UInt8} (h : w.current? = some b) :
    w.advance.ahead < w.ahead := by
  have hlt : w.cursor < w.held.size := by
    obtain ⟨hlt, _⟩ := Array.getElem?_eq_some_iff.1 h
    exact hlt
  simp only [ahead, advance]
  omega

end Window

end TypeFour
