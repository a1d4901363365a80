import TypeFour.Proofs.EverySource
import TypeFour.Proofs.Lenient
import TypeFour.Proofs.Stages

/-!
# `TypeFour.Proofs.Policies` — the strict policies refine the others

A policy decides whether something that is wrong with the program is a fault or is passed over. Where nothing
of the kind is met, the policies have nothing to decide: an evaluation that ends under both policies at their
strictest, and not with a fault of theirs, ends in the same way under every other pair. The more lenient
policies, in turn, never raise the faults that they are there to pass over.

## Contents
- `Options.under` — the same limits under other policies.
- `Token.ofWord_of_strict`, `Session.accept_under`, `run_under`, `finish_under` — words, tokens, the end of
  the data.
- `Delivered.not_isIssue_of_lenient`, `not_isTruncation_of_tolerate` — faults that are passed over.
- `evaluate_under` — whole programs.
-/

namespace TypeFour

/-- The same limits under other policies. -/
def Options.under (o : Options) (unknown : UnknownTokens) (truncated : TruncatedInput) : Options :=
  { o with unknownTokens := unknown, truncatedInput := truncated }

/-- A fault that some policy passes over. -/
def Fault.IsPolicy (f : Fault) : Prop :=
  f.isIssue = true ∨ f.isTruncation = true

theorem Fault.not_isPolicy_iff {f : Fault} :
    ¬f.IsPolicy ↔ f.isIssue = false ∧ f.isTruncation = false := by
  simp [IsPolicy]

theorem Fault.not_isPolicy_of_isOperand {f : Fault} (h : f.isOperand = true) : ¬f.IsPolicy :=
  not_isPolicy_iff.mpr ⟨isIssue_of_isOperand h, isTruncation_of_isOperand h⟩

variable {e : Elementary} {n : Nat} {o : Options} {unknown : UnknownTokens} {truncated : TruncatedInput}

/-! ## Words -/

namespace Token

variable {w : Word} {t : Token}

theorem ofName_of_strict (h : ofName .strict w = .ok t) (policy : UnknownTokens) :
    ofName policy w = .ok t := by
  by_cases hname : Operator.ofWord w = .noOp
  · unfold ofName at h
    rw [hname] at h
    cases h
  · rw [ofName_of_ne hname] at h ⊢
    exact h

theorem ofNumeral_of_strict (h : ofNumeral .strict w = .ok t) (policy : UnknownTokens) :
    ofNumeral policy w = .ok t := by
  unfold ofNumeral at h ⊢
  cases hn : numberOf? w with
  | some x =>
    rw [hn] at h
    exact h
  | none =>
    rw [hn] at h
    cases h

/-- **A word that the strict policy lets pass** has the same meaning under every policy. -/
theorem ofWord_of_strict (h : ofWord .strict w = .ok t) (policy : UnknownTokens) :
    ofWord policy w = .ok t := by
  cases w with
  | nil => exact ofName_of_strict (w := []) h policy
  | cons b rest =>
    by_cases hbrace : TypeFour.isBrace b = true
    · have hop (policy : UnknownTokens) :
          ofWord policy (b :: rest) = .ok (.operator (Operator.ofWord (b :: rest))) := if_pos hbrace
      rw [hop] at h ⊢
      exact h
    · rw [Bool.not_eq_true] at hbrace
      by_cases hnum : b < 0x41
      · rw [ofWord_numeral hnum] at h ⊢
        exact ofNumeral_of_strict h policy
      · rw [ofWord_name hbrace hnum] at h ⊢
        cases hbool : booleanOf? (b :: rest) with
        | some truth =>
          rw [hbool] at h
          exact h
        | none =>
          rw [hbool] at h
          exact ofName_of_strict h policy

end Token

/-! ## Tokens -/

namespace Session

/-- A closing brace is the only token that a policy decides about. -/
theorem accept_under (t : Token) (s : Session) :
    Outcome.Follows Fault.IsPolicy Eq (s.accept e n (o.under .strict .fail) t)
      (s.accept e n (o.under unknown truncated) t) := by
  cases t with
  | number x => exact .refl _ _
  | boolean b => exact .refl _ _
  | operator op =>
    cases op with
    | closeBrace =>
      obtain ⟨stack, recordings, depth, opened⟩ := s
      match depth with
      | 0 => exact .excused (.inl rfl)
      | 1 => exact .refl _ _
      | d + 2 => exact .refl _ _
    | _ => exact .refl _ _

/-- **All words.** -/
theorem run_under (ws : List Word) (s : Session) :
    Outcome.Follows Fault.IsPolicy Eq (run e n (o.under .strict .fail) ws s)
      (run e n (o.under unknown truncated) ws s) := by
  induction ws generalizing s with
  | nil => exact .refl _ _
  | cons w ws ih =>
    cases ht : Token.ofWord .strict w with
    | error f =>
      rw [run, show (o.under .strict .fail).unknownTokens = .strict from rfl, ht]
      rcases (Token.ofWord_fault ht).2 with rfl | rfl
      · exact .excused (.inl rfl)
      · exact .excused (.inl rfl)
    | ok t =>
      rw [run_cons (o := o.under .strict .fail) ht, run_cons (Token.ofWord_of_strict ht _)]
      refine (accept_under t s).andThen ?_
      rintro u _ rfl
      exact ih u

/-- **The end of the data.** -/
theorem finish_under (s : Session) :
    Outcome.Follows Fault.IsPolicy Eq (some (s.finish (o.under .strict .fail)))
      (some (s.finish (o.under unknown truncated))) := by
  unfold finish
  by_cases hdepth : s.depth = 0
  · rw [if_pos hdepth, if_pos hdepth]
    exact .refl _ _
  · rw [if_neg hdepth]
    exact .excused (.inr rfl)

end Session

theorem Transcript.conclude_under (t : Transcript) (s : Session) :
    Outcome.Follows Fault.IsPolicy Eq (some (t.conclude (o.under .strict .fail) s))
      (some (t.conclude (o.under unknown truncated) s)) := by
  unfold conclude
  cases t.fault with
  | some f => exact .error f
  | none => exact Session.finish_under s

/-! ## Whole programs -/

namespace Delivered

/-- The two runs side by side. -/
theorem evaluate_follows_strict (unknown : UnknownTokens) (truncated : TruncatedInput) (d : Delivered)
    (inputs : List Float) :
    Outcome.Follows Fault.IsPolicy Eq (d.evaluate e n (o.under .strict .fail) inputs)
      (d.evaluate e n (o.under unknown truncated) inputs) := by
  rw [evaluate_eq_andThen, evaluate_eq_andThen]
  refine (Outcome.Follows.refl _ _).andThen ?_
  rintro stack _ rfl
  rw [Transcript.evaluate_eq_andThen, Transcript.evaluate_eq_andThen]
  refine (Session.run_under _ _).andThen ?_
  rintro s _ rfl
  exact Transcript.conclude_under _ s

/-- The lenient policy raises no fault that it passes over. -/
theorem not_isIssue_of_lenient {d : Delivered} {inputs : List Float} {f : Fault}
    (hpolicy : o.unknownTokens = .lenient) (h : d.evaluate e n o inputs = some (.error f)) :
    f.isIssue = false := by
  rcases evaluate_fault h with hinputs | ⟨stack, -, hrun | ⟨s, -, hfault | ⟨-, hfinish⟩⟩⟩
  · exact Fault.isIssue_of_isOperand (isOperand_of_inputs hinputs)
  · by_contra hissue
    rw [Session.strict_of_run_fault hrun ((Bool.not_eq_false _).mp hissue)] at hpolicy
    cases hpolicy
  · rcases transcript_fault hfault with rfl | ⟨reason, rfl⟩ <;> rfl
  · rcases (Session.finish_fault hfinish).2 with ⟨rfl, -⟩ | ⟨hop, -⟩
    · rfl
    · exact Fault.isIssue_of_isOperand hop

/-- The tolerant policy raises no fault that it passes over. -/
theorem not_isTruncation_of_tolerate {d : Delivered} {inputs : List Float} {f : Fault}
    (hpolicy : o.truncatedInput = .tolerate) (h : d.evaluate e n o inputs = some (.error f)) :
    f.isTruncation = false := by
  rcases evaluate_fault h with hinputs | ⟨stack, -, hrun | ⟨s, -, hfault | ⟨-, hfinish⟩⟩⟩
  · exact Fault.isTruncation_of_isOperand (isOperand_of_inputs hinputs)
  · exact Session.not_isTruncation_of_run_fault hrun
  · rcases transcript_fault hfault with rfl | ⟨reason, rfl⟩ <;> rfl
  · rcases (Session.finish_fault hfinish).2 with ⟨-, hfail⟩ | ⟨hop, -⟩
    · rw [hpolicy] at hfail
      cases hfail
    · exact Fault.isTruncation_of_isOperand hop

end Delivered

/-- Nothing that a policy passes over comes before the first word. -/
theorem Unread.not_isPolicy {inputs : List Float} {f : Fault} (h : Unread o inputs f) : ¬f.IsPolicy := by
  rcases h.cause with hinputs | rfl
  · exact Fault.not_isPolicy_of_isOperand (isOperand_of_inputs hinputs)
  · exact Fault.not_isPolicy_iff.mpr ⟨rfl, rfl⟩

/-- **The strict policies refine the others.** An evaluation that ends under both policies at their strictest,
with a stack or with a fault that no policy passes over, ends in the same way under every pair of policies.
And whatever the program, the lenient policy never ends in a fault of an unknown word or a stray brace, and
the tolerant one never in that of data that is cut short. -/
theorem evaluate_under (e : Elementary) (n : Nat) (o : Options) (source : Source) (inputs : List Float) :
    (∀ r, evaluate e n (o.under .strict .fail) source inputs = some r →
      (∀ f, r = .error f → f.isIssue = false ∧ f.isTruncation = false) →
      ∀ unknown truncated, evaluate e n (o.under unknown truncated) source inputs = some r) ∧
    (∀ truncated f, evaluate e n (o.under .lenient truncated) source inputs = some (.error f) →
      f.isIssue = false) ∧
    ∀ unknown f, evaluate e n (o.under unknown .tolerate) source inputs = some (.error f) →
      f.isTruncation = false := by
  rcases unread_or_read o inputs with ⟨f, hunread⟩ | ⟨hwraps, -⟩
  · obtain ⟨hissue, htruncation⟩ := Fault.not_isPolicy_iff.mp hunread.not_isPolicy
    have hunder (unknown : UnknownTokens) (truncated : TruncatedInput) :
        evaluate e n (o.under unknown truncated) source inputs = some (.error f) :=
      hunread.evaluate_eq e n _ source rfl rfl
    simp only [hunder]
    refine ⟨fun r hr _ _ _ => hr, fun _ g hg => ?_, fun _ g hg => ?_⟩ <;> cases hg
    · exact hissue
    · exact htruncation
  obtain ⟨d, hd⟩ := exists_evaluate_delivered source
  have hunder (unknown : UnknownTokens) (truncated : TruncatedInput) :
      evaluate e n (o.under unknown truncated) source inputs =
        d.evaluate e n (o.under unknown truncated) inputs := hd e n (o.under unknown truncated) inputs hwraps
  simp only [hunder]
  refine ⟨?_, fun _ _ => Delivered.not_isIssue_of_lenient rfl,
    fun _ _ => Delivered.not_isTruncation_of_tolerate rfl⟩
  intro r hr hsettled unknown truncated
  have hfollows := d.evaluate_follows_strict (e := e) (n := n) (o := o) unknown truncated inputs
  cases r with
  | ok s =>
    obtain ⟨s', hs', rfl⟩ := hfollows.exists_ok hr
    exact hs'
  | error f => exact hfollows.eq_error hr (Fault.not_isPolicy_iff.mpr (hsettled f rfl))

/-! ### A fault that comes first -/

/-- The text `{pop nil`. -/
def popFirst : List UInt8 :=
  [0x7B, 0x70, 0x6F, 0x70, 0x20, 0x6E, 0x69, 0x6C]

/-- The operand is missed before the unknown word and the missing brace are met, under the strict policies as
under the others. -/
theorem evaluate_under_popFirst :
    evaluate .machine 0 (Options.under {} .strict .fail) (.ofBytes popFirst) [] =
        some (.error .stackUnderflow) ∧
      ∀ unknown truncated, evaluate .machine 0 (Options.under {} unknown truncated) (.ofBytes popFirst) [] =
        some (.error .stackUnderflow) := by
  have hstrict : evaluate .machine 0 (Options.under {} .strict .fail) (.ofBytes popFirst) [] =
      some (.error .stackUnderflow) :=
    (evaluate_of_inputs (by simp [Source.ofBytes]) (by decide) rfl).trans (by rfl)
  refine ⟨hstrict, (evaluate_under .machine 0 {} (.ofBytes popFirst) []).1 _ hstrict ?_⟩
  rintro f hf
  cases hf
  exact ⟨rfl, rfl⟩

end TypeFour
