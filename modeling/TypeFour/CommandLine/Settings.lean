import TypeFour.Options

/-!
# `TypeFour.CommandLine.Settings` — reading the arguments

Options stand before everything else. The first argument that is no option begins the positional
ones, and from there on nothing is an option any more; `--` does the same and is dropped. An
argument that starts with a hyphen and names no option is positional.

A long option may carry its value after `=`, a short one right after its letter; otherwise the
value is the next argument, which must not itself be an option or `--`. Every option may be given
once.

## Contents
- `Switch` — the options, by name and letter.
- `Settings` — what has been asked for.
- `Argument.read` — an argument on its own.
- `Settings.read` — all arguments.
-/

namespace TypeFour.CommandLine

/-! ## Options by name -/

/-- The options of the command line. -/
inductive Switch where
  | file | strict | failOnTruncated | maxStackDepth | maxNestingDepth | help | version
deriving DecidableEq, Repr

namespace Switch

/-- The option with a long name. -/
def ofName? (name : String) : Option Switch :=
  if name = "file" then some file
  else if name = "strict" then some strict
  else if name = "fail-on-truncated" then some failOnTruncated
  else if name = "max-stack-depth" then some maxStackDepth
  else if name = "max-nesting-depth" then some maxNestingDepth
  else if name = "help" then some help
  else if name = "version" then some version
  else none

/-- The option with a letter. -/
def ofLetter? (c : Char) : Option Switch :=
  if c = 'f' then some file
  else if c = 'h' then some help
  else if c = 'V' then some version
  else none

/-- The option is followed by a value. -/
def takesValue : Switch → Bool
  | file | maxStackDepth | maxNestingDepth => true
  | strict | failOnTruncated | help | version => false

end Switch

/-! ## One argument -/

/-- What an argument is, as long as options are possible. -/
inductive Argument where
  /-- `--`. -/
  | separator
  /-- An option, with the value attached to it. -/
  | switch (name : Switch) (attached : Option String)
  /-- Anything else. -/
  | plain

/-- A long option: its name up to the first `=`, and the rest as its value. -/
def Argument.readLong (cs : List Char) : Argument :=
  match Switch.ofName? (String.ofList (cs.takeWhile (· != '='))) with
  | none => plain
  | some name =>
    match cs.dropWhile (· != '=') with
    | [] => switch name none
    | _ :: value => switch name (some (String.ofList value))

/-- Letters after one hyphen. They are options only when each of them is the letter of one; then
the first is the option, and what follows it is its value. -/
def Argument.readLetters (c : Char) (cs : List Char) : Argument :=
  match Switch.ofLetter? c with
  | none => plain
  | some name =>
    if cs.all fun c => (Switch.ofLetter? c).isSome then
      switch name (if cs.isEmpty then none else some (String.ofList cs))
    else plain

/-- What an argument is. -/
def Argument.read (arg : String) : Argument :=
  match arg.toList with
  | ['-', '-'] => separator
  | '-' :: '-' :: cs => readLong cs
  | '-' :: c :: cs => readLetters c cs
  | _ => plain

/-! ## All arguments -/

/-- Why there is nothing to evaluate. -/
inductive Stop where
  /-- The arguments are wrong. -/
  | misuse
  /-- Help was asked for. -/
  | help
  /-- The version was asked for. -/
  | version
deriving DecidableEq, Repr

/-- What the arguments ask for; an option that was not given is absent. -/
structure Settings where
  file : Option String := none
  strict : Bool := false
  failOnTruncated : Bool := false
  maxStackDepth : Option Nat := none
  maxNestingDepth : Option Nat := none
  positional : List String := []
deriving DecidableEq, Repr

/-- A natural number of at most 64 bits: digits, after a `+` or not. -/
def readNatural? (text : String) : Option Nat :=
  let ds := match text.toList with
    | '+' :: ds => ds
    | ds => ds
  if ds.isEmpty || !ds.all Char.isDigit then none
  else
    let n := ds.foldl (fun n d => 10 * n + (d.toNat - '0'.toNat)) 0
    if n < UInt64.size then some n else none

namespace Settings

/-- Takes note of an option without a value. -/
def setFlag (s : Settings) : Switch → Except Stop Settings
  | .strict => if s.strict then throw .misuse else return { s with strict := true }
  | .failOnTruncated =>
    if s.failOnTruncated then throw .misuse else return { s with failOnTruncated := true }
  | .help => throw .help
  | .version => throw .version
  | _ => throw .misuse

/-- Takes note of an option with its value. -/
def setValue (s : Settings) (name : Switch) (value : String) : Except Stop Settings :=
  match name with
  | .file =>
    if s.file.isSome || value.isEmpty then throw .misuse else return { s with file := some value }
  | .maxStackDepth =>
    match s.maxStackDepth, readNatural? value with
    | none, some n => return { s with maxStackDepth := some n }
    | _, _ => throw .misuse
  | .maxNestingDepth =>
    match s.maxNestingDepth, readNatural? value with
    | none, some n => return { s with maxNestingDepth := some n }
    | _, _ => throw .misuse
  | _ => throw .misuse

/-- Takes note of the remaining arguments. -/
def readFrom (s : Settings) : List String → Except Stop Settings
  | [] => return s
  | arg :: rest =>
    match Argument.read arg with
    | .separator => return { s with positional := rest }
    | .plain => return { s with positional := arg :: rest }
    | .switch name (some value) => do
      let s ← s.setValue name value
      s.readFrom rest
    | .switch name none =>
      if name.takesValue then
        match rest with
        | [] => throw .misuse
        | value :: rest =>
          match Argument.read value with
          | .plain => do
            let s ← s.setValue name value
            s.readFrom rest
          | _ => throw .misuse
      else do
        let s ← s.setFlag name
        s.readFrom rest

/-- What a list of arguments asks for. -/
def read (args : List String) : Except Stop Settings :=
  readFrom {} args

/-- The options of the evaluation. A stack depth of zero means no limit. -/
def options (s : Settings) : Options :=
  let base : Options := if s.strict then .strict else {}
  { base with
    truncatedInput := if s.failOnTruncated then .fail else base.truncatedInput
    maxStackDepth := match s.maxStackDepth with
      | none => base.maxStackDepth
      | some 0 => none
      | some n => some n
    maxNestingDepth := s.maxNestingDepth.getD base.maxNestingDepth }

end Settings

end TypeFour.CommandLine
