/-!
# `TypeFour.Word` — the bytes that make and part words

A program is a sequence of words. A brace is a word by itself; any other word is a run of bytes
that are neither blank nor a brace, as long as possible. Blanks only part words.

## Contents
- `Word`, `openByte`, `closeByte` — a word, and the braces.
- `isBlank`, `isBrace`, `endsWord` — the bytes that part words.
-/

namespace TypeFour

/-- The bytes of one word. -/
abbrev Word :=
  List UInt8

/-- NUL, tab, line feed, form feed, carriage return and space. -/
def isBlank (b : UInt8) : Bool :=
  b = 0x00 || b = 0x09 || b = 0x0A || b = 0x0C || b = 0x0D || b = 0x20

/-- The opening brace. -/
def openByte : UInt8 := 0x7B

/-- The closing brace. -/
def closeByte : UInt8 := 0x7D

/-- Either brace. -/
def isBrace (b : UInt8) : Bool :=
  b = openByte || b = closeByte

/-- A byte at which a word begun before it ends. -/
def endsWord (b : UInt8) : Bool :=
  isBlank b || isBrace b

end TypeFour
