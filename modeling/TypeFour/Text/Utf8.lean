/-!
# `TypeFour.Text.Utf8` — reading bytes as text without ever failing

A byte sequence is decoded one byte at a time. Where the bytes are not UTF-8, each longest run
that could still have begun a character becomes one U+FFFD, and the byte that broke the run is
looked at afresh: it may begin the next character.

## Contents
- `Pending` — a character whose first bytes have been read.
- `start`, `step`, `flush` — the reader, one byte at a time.
- `decode` — the reader run over a whole sequence.
-/

namespace TypeFour.Text.Utf8

/-- The character that stands for bytes that are not UTF-8. -/
def replacement : Char := '\uFFFD'

/-- A character begun: the bits gathered so far, how many continuation bytes come after the next
one, and the range in which the next one must lie. Only the byte after the lead is ever
restricted, which keeps out overlong forms, surrogates and values past U+10FFFF. -/
structure Pending where
  bits : Nat
  after : Nat
  low : UInt8
  high : UInt8

/-- A byte that begins a character: the characters it settles, and the character it leaves begun. -/
def start (b : UInt8) : List Char × Option Pending :=
  if b < 0x80 then ([Char.ofNat b.toNat], none)
  else if b < 0xC2 then ([replacement], none)
  else if b < 0xE0 then ([], some ⟨b.toNat - 0xC0, 0, 0x80, 0xBF⟩)
  else if b < 0xF0 then
    ([], some ⟨b.toNat - 0xE0, 1, if b = 0xE0 then 0xA0 else 0x80, if b = 0xED then 0x9F else 0xBF⟩)
  else if b < 0xF5 then
    ([], some ⟨b.toNat - 0xF0, 2, if b = 0xF0 then 0x90 else 0x80, if b = 0xF4 then 0x8F else 0xBF⟩)
  else ([replacement], none)

/-- The next byte. One that cannot continue the character begun ends it as a replacement, and
then begins a character itself. -/
def step : Option Pending → UInt8 → List Char × Option Pending
  | none, b => start b
  | some p, b =>
    if p.low ≤ b ∧ b ≤ p.high then
      let bits := p.bits * 0x40 + (b.toNat - 0x80)
      match p.after with
      | 0 => ([Char.ofNat bits], none)
      | n + 1 => ([], some ⟨bits, n, 0x80, 0xBF⟩)
    else
      let (settled, begun) := start b
      (replacement :: settled, begun)

/-- What the end of the bytes settles. -/
def flush : Option Pending → List Char
  | none => []
  | some _ => [replacement]

/-- Decodes the bytes that follow a character begun, if one is. -/
def decodeFrom : Option Pending → List UInt8 → List Char
  | p, [] => flush p
  | p, b :: bs =>
    let (settled, begun) := step p b
    settled ++ decodeFrom begun bs

/-- The text of a byte sequence. -/
def decode (bytes : List UInt8) : List Char :=
  decodeFrom none bytes

end TypeFour.Text.Utf8
