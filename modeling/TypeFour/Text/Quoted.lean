import TypeFour.Text.Unprintable

/-!
# `TypeFour.Text.Quoted` — text shown between double quotes

Messages show a piece of the input between double quotes, so that a reader sees where it starts
and ends and which characters it holds. The quote and the backslash take a backslash; tab,
carriage return, line feed and NUL have a letter (or digit) each; any other unprintable character
is written by number. Everything else, the single quote included, stands for itself.

## Contents
- `byNumber`, `quoteChar` — one character.
- `quoted` — a whole text.
-/

namespace TypeFour.Text

/-- A character by number: lower-case hexadecimal without leading zeros, in braces. -/
def byNumber (c : Char) : List Char :=
  ['\\', 'u', '\x7b'] ++ Nat.toDigits 16 c.toNat ++ ['\x7d']

/-- One character as it appears between the quotes. -/
def quoteChar (c : Char) : List Char :=
  match c with
  | '\x00' => ['\\', '0']
  | '\t' => ['\\', 't']
  | '\r' => ['\\', 'r']
  | '\n' => ['\\', 'n']
  | '"' => ['\\', '"']
  | '\\' => ['\\', '\\']
  | c => if isUnprintable c then byNumber c else [c]

/-- Text between double quotes. -/
def quoted (cs : List Char) : String :=
  String.ofList ('"' :: cs.flatMap quoteChar ++ ['"'])

end TypeFour.Text
