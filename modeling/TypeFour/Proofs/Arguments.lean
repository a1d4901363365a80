import TypeFour.CommandLine.Settings

/-!
# `TypeFour.Proofs.Arguments` — what the arguments ask for

Arguments that are understood fall into two parts. The first are options, each of which asks for one thing,
with a value of its own where it takes one. The second begins with the first argument that is no option, or
after `--`, and all of it is positional, whatever it looks like. What has been asked for is found in the
settings, and nothing else is.

## Contents
- `Wish`, `Asks`, `Positional` — what options ask for, and the arguments after them.
- `Settings.Granted` — settings with all that has been asked for, and nothing else.
- `setFlag_ok`, `setValue_ok`, `readFrom_ok` — one option, and all arguments.
- `read_ok` — the two parts of the arguments.
- `OptionsFor`, `optionsFor` — the options of the evaluation.
-/

namespace TypeFour.CommandLine

/-! ## Options and positional arguments -/

/-- What an option asks for. -/
inductive Wish where
  | file (path : String)
  | strict
  | failOnTruncated
  | maxStackDepth (n : Nat)
  | maxNestingDepth (n : Nat)

/-- What an option without a value asks for. -/
def Wish.ofFlag? : Switch → Option Wish
  | .strict => some strict
  | .failOnTruncated => some failOnTruncated
  | _ => none

/-- What an option with a value asks for. A path is not empty, and depths are natural numbers. -/
def Wish.ofValue? : Switch → String → Option Wish
  | .file, path => if path.isEmpty then none else some (file path)
  | .maxStackDepth, text => (readNatural? text).map maxStackDepth
  | .maxNestingDepth, text => (readNatural? text).map maxNestingDepth
  | _, _ => none

/-- The arguments are options that ask for these things, each with its value, if it takes one, attached to it
or as the next argument. -/
inductive Asks : List String → List Wish → Prop where
  | nil : Asks [] []
  | flag {arg : String} {name : Switch} {w : Wish} {args : List String} {ws : List Wish} :
      Argument.read arg = .switch name none → Wish.ofFlag? name = some w → Asks args ws →
      Asks (arg :: args) (w :: ws)
  | attached {arg value : String} {name : Switch} {w : Wish} {args : List String} {ws : List Wish} :
      Argument.read arg = .switch name (some value) → Wish.ofValue? name value = some w → Asks args ws →
      Asks (arg :: args) (w :: ws)
  | separate {arg value : String} {name : Switch} {w : Wish} {args : List String} {ws : List Wish} :
      Argument.read arg = .switch name none → Argument.read value = .plain →
      Wish.ofValue? name value = some w → Asks args ws → Asks (arg :: value :: args) (w :: ws)

/-- The arguments after the options, and which of them are positional: all, but for a `--` that begins
them. -/
inductive Positional : List String → List String → Prop where
  | none : Positional [] []
  | separated {args : List String} : Positional ("--" :: args) args
  | plain {arg : String} {args : List String} :
      Argument.read arg = .plain → Positional (arg :: args) (arg :: args)

/-- Only `--` separates. -/
theorem eq_of_read_separator {arg : String} (h : Argument.read arg = .separator) : arg = "--" := by
  unfold Argument.read at h
  split at h
  · next hchars => exact String.toList_inj.mp hchars
  · unfold Argument.readLong at h
    split at h
    · cases h
    · split at h <;> cases h
  · unfold Argument.readLetters at h
    split at h
    · cases h
    · split at h <;> cases h
  · cases h

namespace Settings

/-- This has been asked for. -/
def Wants (s : Settings) : Wish → Prop
  | .file path => s.file = some path
  | .strict => s.strict = true
  | .failOnTruncated => s.failOnTruncated = true
  | .maxStackDepth n => s.maxStackDepth = some n
  | .maxNestingDepth n => s.maxNestingDepth = some n

/-- The settings `t` want what `s` wants and these things, and nothing else. -/
def Granted (s : Settings) (ws : List Wish) (t : Settings) : Prop :=
  ∀ w, t.Wants w ↔ s.Wants w ∨ w ∈ ws

variable {s t u : Settings} {ws : List Wish} {name : Switch} {value : String}

theorem Granted.cons {w : Wish} (h : s.Granted [w] t) (h' : t.Granted ws u) : s.Granted (w :: ws) u := by
  intro w'
  rw [h' w', h w', List.mem_singleton, List.mem_cons, or_assoc]

/-! ### One option -/

/-- **An option without a value** is granted. -/
theorem setFlag_ok (h : s.setFlag name = .ok t) :
    t.positional = s.positional ∧ ∃ w, Wish.ofFlag? name = some w ∧ s.Granted [w] t := by
  cases name with
  | strict =>
    rw [setFlag] at h
    cases hs : s.strict with
    | true =>
      rw [hs] at h
      cases h
    | false =>
      rw [hs] at h
      cases h
      refine ⟨rfl, .strict, rfl, fun w => ?_⟩
      cases w <;> simp [Wants]
  | failOnTruncated =>
    rw [setFlag] at h
    cases hs : s.failOnTruncated with
    | true =>
      rw [hs] at h
      cases h
    | false =>
      rw [hs] at h
      cases h
      refine ⟨rfl, .failOnTruncated, rfl, fun w => ?_⟩
      cases w <;> simp [Wants]
  | _ => cases h

/-- **An option with a value** is granted. -/
theorem setValue_ok (h : s.setValue name value = .ok t) :
    t.positional = s.positional ∧ ∃ w, Wish.ofValue? name value = some w ∧ s.Granted [w] t := by
  cases name with
  | file =>
    rw [setValue] at h
    cases hs : s.file with
    | some path =>
      rw [hs] at h
      cases h
    | none =>
      cases hv : value.isEmpty with
      | true =>
        rw [hs, hv] at h
        cases h
      | false =>
        rw [hs, hv] at h
        cases h
        refine ⟨rfl, .file value, by rw [Wish.ofValue?, hv]; rfl, fun w => ?_⟩
        cases w with
        | file path => simp [Wants, hs, eq_comm]
        | _ => simp [Wants]
  | maxStackDepth =>
    rw [setValue] at h
    cases hs : s.maxStackDepth with
    | some n =>
      rw [hs] at h
      cases h
    | none =>
      cases hv : readNatural? value with
      | none =>
        rw [hs, hv] at h
        cases h
      | some n =>
        rw [hs, hv] at h
        cases h
        refine ⟨rfl, .maxStackDepth n, by rw [Wish.ofValue?, hv]; rfl, fun w => ?_⟩
        cases w with
        | maxStackDepth m => simp [Wants, hs, eq_comm]
        | _ => simp [Wants]
  | maxNestingDepth =>
    rw [setValue] at h
    cases hs : s.maxNestingDepth with
    | some n =>
      rw [hs] at h
      cases h
    | none =>
      cases hv : readNatural? value with
      | none =>
        rw [hs, hv] at h
        cases h
      | some n =>
        rw [hs, hv] at h
        cases h
        refine ⟨rfl, .maxNestingDepth n, by rw [Wish.ofValue?, hv]; rfl, fun w => ?_⟩
        cases w with
        | maxNestingDepth m => simp [Wants, hs, eq_comm]
        | _ => simp [Wants]
  | _ => cases h

/-! ### All arguments -/

/-- The arguments are options and then positional ones, and what the options ask for is granted. -/
def Understood (s : Settings) (args : List String) (t : Settings) : Prop :=
  ∃ front back ws, args = front ++ back ∧ Asks front ws ∧ Positional back t.positional ∧ s.Granted ws t

/-- No options. -/
theorem Understood.positional {args positional : List String} (h : Positional args positional) :
    s.Understood args { s with positional } := by
  refine ⟨[], args, [], rfl, .nil, h, fun w => ?_⟩
  cases w <;> simp [Wants]

/-- One more option. -/
theorem Understood.cons {args : List String} {w : Wish} (h : t.Understood args u) (option : List String)
    (hoption : ∀ {front ws}, Asks front ws → Asks (option ++ front) (w :: ws)) (hw : s.Granted [w] t) :
    s.Understood (option ++ args) u := by
  obtain ⟨front, back, ws, rfl, hasks, hback, hgranted⟩ := h
  exact ⟨option ++ front, back, w :: ws, (List.append_assoc _ _ _).symm, hoption hasks, hback, hw.cons hgranted⟩

/-- **Arguments that can be read** are understood. -/
theorem readFrom_ok {args : List String} (hs : s.positional = []) (h : s.readFrom args = .ok t) :
    s.Understood args t := by
  induction s, args using readFrom.induct generalizing t with
  | case1 s =>
    cases h
    have hnone : Positional [] s.positional := hs ▸ .none
    exact .positional hnone
  | case2 s arg rest harg =>
    rw [readFrom, harg] at h
    cases h
    exact .positional (eq_of_read_separator harg ▸ .separated)
  | case3 s arg rest harg =>
    rw [readFrom, harg] at h
    cases h
    exact .positional (.plain harg)
  | case4 s arg rest name value harg ih =>
    rw [readFrom, harg] at h
    cases hset : s.setValue name value with
    | error stop =>
      simp only [hset] at h
      cases h
    | ok v =>
      simp only [hset] at h
      obtain ⟨hpos, w, hw, hgranted⟩ := setValue_ok hset
      exact (ih v (hpos.trans hs) h).cons [arg] (.attached harg hw) hgranted
  | case5 s arg name harg htakes =>
    rw [readFrom, harg] at h
    simp only [htakes] at h
    cases h
  | case6 s arg name harg htakes value rest hvalue ih =>
    rw [readFrom, harg] at h
    simp only [htakes, hvalue] at h
    cases hset : s.setValue name value with
    | error stop =>
      simp only [hset] at h
      cases h
    | ok v =>
      simp only [hset] at h
      obtain ⟨hpos, w, hw, hgranted⟩ := setValue_ok hset
      exact (ih v (hpos.trans hs) h).cons [arg, value] (.separate harg hvalue hw) hgranted
  | case7 s arg name harg htakes value rest hvalue =>
    rw [readFrom, harg] at h
    simp only [htakes] at h
    cases h
  | case8 s arg rest name harg htakes ih =>
    rw [readFrom, harg] at h
    simp only [htakes] at h
    cases hset : s.setFlag name with
    | error stop =>
      simp only [hset] at h
      cases h
    | ok v =>
      simp only [hset] at h
      obtain ⟨hpos, w, hw, hgranted⟩ := setFlag_ok hset
      exact (ih v (hpos.trans hs) h).cons [arg] (.flag harg hw) hgranted

/-- All arguments: nothing is wanted to begin with. -/
theorem read_ok {args : List String} (h : read args = .ok t) :
    ∃ front back ws, args = front ++ back ∧ Asks front ws ∧ Positional back t.positional ∧
      ∀ w, t.Wants w ↔ w ∈ ws := by
  obtain ⟨front, back, ws, hargs, hasks, hback, hgranted⟩ := readFrom_ok rfl h
  refine ⟨front, back, ws, hargs, hasks, hback, fun w => ?_⟩
  have hnone : ¬Wants {} w := by cases w <;> nofun
  rw [hgranted w, or_iff_right hnone]

end Settings

/-! ## Options of the evaluation -/

/-- The options that these wishes amount to: the strict preset or the customary one, where data that ends too
early is a fault if that is asked for, and the limits that are given, where a stack depth of zero is none. -/
structure OptionsFor (ws : List Wish) (o : Options) : Prop where
  unknownTokens : o.unknownTokens = .strict ↔ .strict ∈ ws
  truncatedInput : o.truncatedInput = .fail ↔ .strict ∈ ws ∨ .failOnTruncated ∈ ws
  unlimited : .maxStackDepth 0 ∈ ws → o.maxStackDepth = none
  maxStackDepth : ∀ n, n ≠ 0 → .maxStackDepth n ∈ ws → o.maxStackDepth = some n
  customaryStackDepth : (∀ n, .maxStackDepth n ∉ ws) → o.maxStackDepth = some 100
  maxNestingDepth : ∀ n, .maxNestingDepth n ∈ ws → o.maxNestingDepth = n
  customaryNestingDepth : (∀ n, .maxNestingDepth n ∉ ws) → o.maxNestingDepth = 250
  bufferCapacity : o.bufferCapacity = 256

namespace Settings

theorem optionsFor {s : Settings} {ws : List Wish} (h : ∀ w, s.Wants w ↔ w ∈ ws) : OptionsFor ws s.options := by
  have hstrict : s.strict = true ↔ .strict ∈ ws := h .strict
  have hfail : s.failOnTruncated = true ↔ .failOnTruncated ∈ ws := h .failOnTruncated
  have hstack (n : Nat) : s.maxStackDepth = some n ↔ .maxStackDepth n ∈ ws := h (.maxStackDepth n)
  have hnesting (n : Nat) : s.maxNestingDepth = some n ↔ .maxNestingDepth n ∈ ws := h (.maxNestingDepth n)
  constructor
  case unknownTokens =>
    rw [← hstrict, options]
    cases s.strict <;> simp [Options.strict]
  case truncatedInput =>
    rw [← hstrict, ← hfail, options]
    cases s.strict <;> cases s.failOnTruncated <;> simp [Options.strict]
  case unlimited =>
    intro hzero
    rw [options, (hstack 0).mpr hzero]
    rfl
  case maxStackDepth =>
    intro n hn hmem
    obtain ⟨k, rfl⟩ := Nat.exists_eq_succ_of_ne_zero hn
    rw [options, (hstack _).mpr hmem]
    rfl
  case customaryStackDepth =>
    intro hnone
    have habsent : s.maxStackDepth = none := Option.eq_none_iff_forall_ne_some.mpr fun n hn =>
      hnone n ((hstack n).mp hn)
    rw [options, habsent]
    cases s.strict <;> rfl
  case maxNestingDepth =>
    intro n hmem
    rw [options, (hnesting n).mpr hmem]
    rfl
  case customaryNestingDepth =>
    intro hnone
    have habsent : s.maxNestingDepth = none := Option.eq_none_iff_forall_ne_some.mpr fun n hn =>
      hnone n ((hnesting n).mp hn)
    rw [options, habsent]
    cases s.strict <;> rfl
  case bufferCapacity =>
    rw [options]
    cases s.strict <;> rfl

end Settings

end TypeFour.CommandLine
