import TypeFour.CommandLine.Report

/-!
# `TypeFour.Main` — the command

Everything that the command decides is in `TypeFour.CommandLine`; here the file is read, the answer
is printed and the exit code is handed over.

## Contents
- `readFile`, `fileTrouble` — the file, or what its trouble is called.
- `main` — the command.
-/

namespace TypeFour

/-- Why a file could not be read, in the words of the system. -/
def fileTrouble : IO.Error → String
  | .noFileOrDirectory .. => "No such file or directory (os error 2)"
  | .permissionDenied .. => "Permission denied (os error 13)"
  | .inappropriateType _ 21 _ => "Is a directory (os error 21)"
  | .inappropriateType .. => "Not a directory (os error 20)"
  | e => toString e

/-- The content of a file, or the reason why there is none. -/
def readFile (path : String) : IO (Except String (List UInt8)) := do
  try
    return .ok (← IO.FS.readBinFile path).toList
  catch e =>
    return .error (fileTrouble e)

end TypeFour

open TypeFour CommandLine in
/-- Answers one call. -/
def main (args : List String) : IO UInt32 := do
  let content ← match Settings.read args with
    | .ok { file := some path, .. } => readFile path
    | _ => pure (.error "")
  match respond .machine replayBound (fun _ => content) args with
  | some report =>
    IO.print report.stdout
    IO.eprint report.stderr
    return report.exitCode.toUInt32
  | none =>
    IO.eprintln "Error: too many replays under way"
    return 1
