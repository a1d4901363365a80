import TypeFour.CommandLine.Settings
import TypeFour.Decimal.Positional
import TypeFour.Session

/-!
# `TypeFour.CommandLine.Report` — what a call of the program answers

The program to evaluate is the content of the file named, or else the first positional argument;
the remaining positional arguments are the inputs. The answer is the final stack on one line, or a
message about the first thing that went wrong: the file, then the inputs from the left, then the
evaluation.

## Contents
- `Report` — exit code, output and error text.
- `Trouble`, `Trouble.message` — what can go wrong.
- `Value.text` — a value as the answer shows it.
- `replayBound`, `respond` — the whole command.
-/

namespace TypeFour

/-- A value as the answer shows it. -/
def Value.text : Value → String
  | number n => floatText n
  | boolean b => if b then "true" else "false"
  | procedure _ => "--procedure--"

namespace CommandLine

/-- What the command leaves behind. -/
structure Report where
  exitCode : UInt8
  stdout : String := ""
  stderr : String := ""
deriving DecidableEq, Repr

/-! ## Failures -/

/-- What can go wrong once the arguments have been understood. -/
inductive Trouble where
  /-- The file could not be read. -/
  | file (path cause : String)
  /-- Neither a file nor a positional argument was given. -/
  | noProgram
  /-- An input writes no float. -/
  | input (text : String)
  /-- The evaluation failed. -/
  | evaluation (fault : Fault)

/-- The message about a failure. -/
def Trouble.message : Trouble → String
  | file path _ => "failed to read " ++ path
  | noProgram => "expected a function body or --file"
  | input text => "invalid input " ++ Text.quoted text.toList
  | evaluation fault => fault.message

/-- What the message leaves unsaid. -/
def Trouble.cause? : Trouble → Option String
  | file _ cause => some cause
  | input text =>
    some (if text.isEmpty then "cannot parse float from empty string" else "invalid float literal")
  | noProgram | evaluation _ => none

/-- The report of a failure. -/
def Trouble.report (t : Trouble) : Report where
  exitCode := 1
  stderr := match t.cause? with
    | none => "Error: " ++ t.message ++ "\n"
    | some cause => "Error: " ++ t.message ++ "\n\nCaused by:\n    " ++ cause ++ "\n"

/-! ## The command -/

/-- The most replays that a call lets be under way at once. -/
def replayBound : Nat := 100000

/-- How the command is used. -/
def usage : String :=
  "usage: calculator [-f FILE | --file FILE] [--strict] [--fail-on-truncated]\n" ++
  "         [--max-stack-depth N] [--max-nesting-depth N] [--] [BODY] [INPUT]...\n"

/-- The report when there is nothing to evaluate. -/
def Stop.report : Stop → Report
  | misuse => { exitCode := 2, stderr := usage }
  | help => { exitCode := 0, stdout := usage }
  | version => { exitCode := 0, stdout := "calculator 1.0.0\n" }

/-- The program to evaluate and the texts of its inputs; `read` gives the content of a file, or the
reason why there is none. -/
def program (read : String → Except String (List UInt8)) (s : Settings) :
    Except Trouble (List UInt8 × List String) :=
  match s.file, s.positional with
  | some path, inputs =>
    match read path with
    | .ok bytes => .ok (bytes, inputs)
    | .error cause => .error (.file path cause)
  | none, body :: inputs => .ok (body.toUTF8.toList, inputs)
  | none, [] => .error .noProgram

/-- The float that an argument writes. -/
def readInput (text : String) : Except Trouble Float :=
  match readFloat? text.toUTF8.toList with
  | some x => .ok x
  | none => .error (.input text)

/-- The program to evaluate and its inputs. -/
def prepare (read : String → Except String (List UInt8)) (s : Settings) :
    Except Trouble (List UInt8 × List Float) := do
  let (body, texts) ← program read s
  let inputs ← texts.mapM readInput
  return (body, inputs)

/-- The report of an evaluation that ended. -/
def answer : Except Fault Stack → Report
  | .error fault => (Trouble.evaluation fault).report
  | .ok stack => { exitCode := 0, stdout := " ".intercalate (stack.toList.map Value.text) ++ "\n" }

/-- The report of a call with some arguments, with at most `n` replays under way at once; nothing
when that bound was reached. -/
def respond (e : Elementary) (n : Nat) (read : String → Except String (List UInt8))
    (args : List String) : Option Report :=
  match Settings.read args with
  | .error stop => some stop.report
  | .ok s =>
    match prepare read s with
    | .error trouble => some trouble.report
    | .ok (body, inputs) =>
      (evaluate e n s.options (.ofBytes body) inputs).map answer

end CommandLine

end TypeFour
