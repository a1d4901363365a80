/-!
# `TypeFour.Options` — policies and limits of an evaluation

## Contents
- `UnknownTokens`, `TruncatedInput` — the policies.
- `Options`, `Options.strict` — policies and limits together.
-/

namespace TypeFour

/-- What becomes of a word that means nothing and of a closing brace without an open one: they are
passed over, or they are faults. -/
inductive UnknownTokens where
  | lenient
  | strict
deriving DecidableEq, Repr

/-- What becomes of data that ends inside braces: the missing braces are supplied, or it is a
fault. -/
inductive TruncatedInput where
  | tolerate
  | fail
deriving DecidableEq, Repr

/-- The policies and limits of an evaluation. The values given here are lenient and tolerant, with
the limits that calculator functions have by custom. -/
structure Options where
  unknownTokens : UnknownTokens := .lenient
  truncatedInput : TruncatedInput := .tolerate
  /-- How many values the operand stack may hold; any number when absent. -/
  maxStackDepth : Option Nat := some 100
  /-- How many braces may be open at once, the outermost included. -/
  maxNestingDepth : Nat := 250
  /-- How many bytes a word may have. At least one is always admitted, if there can be a buffer so long. -/
  bufferCapacity : Nat := 256
deriving DecidableEq, Repr

/-- Both policies at their strictest, with the customary limits. -/
def Options.strict : Options where
  unknownTokens := .strict
  truncatedInput := .fail

end TypeFour
