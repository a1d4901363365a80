import TypeFour.Text.Quoted
import TypeFour.Text.Utf8

/-!
# `TypeFour.Fault` — why an evaluation stops

A fault is a cause. Faults that a word of the program brings about carry that word; the wording
shown to a user is `Fault.message`, and nothing else depends on it.

## Contents
- `Fault` — the causes.
- `quotedWord`, `Fault.message` — their wording.
-/

namespace TypeFour

/-- The causes that end an evaluation without a result. -/
inductive Fault where
  /-- A closing brace that no open brace belongs to. -/
  | unmatchedClose
  /-- A word that starts like a number and is none. -/
  | malformedNumber (word : List UInt8)
  /-- A word that names no operator. -/
  | undefined (word : List UInt8)
  /-- A push past the limit of the operand stack. -/
  | stackOverflow
  /-- An operand that is not there. -/
  | stackUnderflow
  /-- An operand of the wrong kind. -/
  | typeCheck
  /-- An operand of the right kind with a value that is not admitted. -/
  | rangeCheck
  /-- A result that is no finite number. -/
  | undefinedResult
  /-- Braces nested too deep, or a word longer than the window. -/
  | limitCheck
  /-- The end of the data inside `depth` open braces. -/
  | truncated (depth : Nat)
  /-- The data could not be read. -/
  | unreadable (reason : String)
deriving DecidableEq, Repr

/-- A word of the program as messages show it. -/
def quotedWord (word : List UInt8) : String :=
  Text.quoted (Text.Utf8.decode word)

/-- The text shown for a fault. -/
def Fault.message : Fault → String
  | unmatchedClose => "syntaxerror: unmatched '\x7d'"
  | malformedNumber word => "syntaxerror: invalid number " ++ quotedWord word
  | undefined word => "undefined: " ++ quotedWord word
  | stackOverflow => "stackoverflow"
  | stackUnderflow => "stackunderflow"
  | typeCheck => "typecheck"
  | rangeCheck => "rangecheck"
  | undefinedResult => "undefinedresult"
  | limitCheck => "limitcheck"
  | truncated depth => "stream ended inside " ++ toString depth ++ " unclosed procedure(s)"
  | unreadable reason => reason

end TypeFour
