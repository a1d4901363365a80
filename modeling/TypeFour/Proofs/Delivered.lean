import Mathlib.Data.List.SplitBy
import TypeFour.Session

/-!
# `TypeFour.Proofs.Delivered` — reading without a window

What a source delivers does not depend on how it is cut into reads: some bytes, and then the end of the
data or a failure. Here the words of such a delivery are found by looking at all of its bytes at once,
with no window, no mark and no refilling; `TypeFour.Proofs.Reading` shows that the reader finds the same ones.

## Contents
- `Delivered`, `Source.delivered` — the bytes that come before a source ends, and why it ends.
- `words` — the words of a text: braces, and maximal runs of bytes that are neither blank nor a brace.
- `Delivered.transcript` — the words that are admitted, and the fault that stops the reading.
- `Delivered.evaluate` — inputs, words, end of the data.
- `text_induction`, `splitBy_*`, `words_*`, `transcript_*` — a text from the front: a blank, a brace or a run.
-/

namespace TypeFour

/-! ## What is delivered -/

/-- The bytes that come before a source ends, and the reason if a failure ends it. -/
structure Delivered where
  bytes : List UInt8
  failure : Option String := none

/-- What a script delivers, whatever the size of the reads. Nothing that comes after the end of the data
or after a failure is delivered. -/
def Delivered.ofScript : List Delivery → Delivered
  | [] => ⟨[], none⟩
  | .chunk bytes :: rest => ⟨bytes ++ (ofScript rest).bytes, (ofScript rest).failure⟩
  | .interruption :: rest => ofScript rest
  | .endOfData :: _ => ⟨[], none⟩
  | .failure reason :: _ => ⟨[], some reason⟩

/-- What a source delivers. -/
def Source.delivered (s : Source) : Delivered :=
  .ofScript s.script

/-! ## Words -/

/-- Two neighbouring bytes that belong to one word. -/
def sameWord (a b : UInt8) : Bool :=
  !endsWord a && !endsWord b

/-- The words of a text, in order. Blanks are no words; a brace never has a neighbour in its word, so it
is one by itself; the other bytes are taken in runs as long as possible. -/
def words (text : List UInt8) : List Word :=
  (text.splitBy sameWord).filter fun w => !w.any isBlank

/-- The last byte of a text is inside a word that could still go on. -/
def endsInWord (text : List UInt8) : Bool :=
  text.getLast?.any fun b => !endsWord b

namespace Delivered

/-- The words that are read before something stops the reading. A word longer than `capacity` does. At a
failure the word that touches the end of the bytes is not known to be whole, and is dropped. -/
def transcript (capacity : Nat) (d : Delivered) : Transcript :=
  let admitted := (words d.bytes).takeWhile (·.length ≤ capacity)
  if admitted.length < (words d.bytes).length then ⟨admitted, some .limitCheck⟩
  else
    match d.failure with
    | none => ⟨admitted, none⟩
    | some reason =>
      ⟨if endsInWord d.bytes then admitted.dropLast else admitted, some (.unreadable reason)⟩

/-- The words that are read are the first ones of what is delivered. -/
theorem words_transcript_isPrefix (capacity : Nat) (d : Delivered) :
    (d.transcript capacity).words <+: words d.bytes := by
  have hadmitted := List.takeWhile_prefix (l := words d.bytes) fun w : Word => decide (w.length ≤ capacity)
  unfold transcript
  simp only
  split
  · exact hadmitted
  · cases d.failure with
    | none => exact hadmitted
    | some reason =>
      -- the word that the failure touches is the last
      by_cases hin : endsInWord d.bytes = true
      · rw [if_pos hin]
        exact (List.dropLast_prefix _).trans hadmitted
      · rw [if_neg hin]
        exact hadmitted

/-- Evaluates a program from what is delivered of it: the inputs are pushed, the words are worked through
in order, and then comes the fault that stopped the reading or the end of the data. -/
def evaluate (e : Elementary) (n : Nat) (o : Options) (d : Delivered) (inputs : List Float) :
    Outcome Stack :=
  match Action.outcome (Stack.pushNumbers inputs) { limit := o.maxStackDepth } with
  | .error f => some (.error f)
  | .ok stack => (d.transcript (max o.bufferCapacity 1)).evaluate e n o stack

end Delivered

/-! ## The words of a text, from the front -/

/-- A text whose first part cannot share a word with the rest is split there. -/
theorem words_append {front rest : List UInt8}
    (h : ∀ a ∈ front.getLast?, ∀ b ∈ rest.head?, sameWord a b = false) :
    words (front ++ rest) = words front ++ words rest := by
  unfold words
  rw [List.splitBy_append h, List.filter_append]

/-- A byte that ends words is parted from what follows. -/
theorem splitBy_cons {b : UInt8} (hb : endsWord b = true) (rest : List UInt8) :
    (b :: rest).splitBy sameWord = [b] :: rest.splitBy sameWord := by
  have hs : ∀ a ∈ [b].getLast?, ∀ c ∈ rest.head?, sameWord a c = false := by
    intro a ha c _
    simp only [List.getLast?_singleton, Option.mem_some_iff] at ha
    simp [sameWord, ← ha, hb]
  exact List.splitBy_append hs

theorem words_blank {b : UInt8} (hb : isBlank b = true) (rest : List UInt8) :
    words (b :: rest) = words rest := by
  rw [words, splitBy_cons (by simp [endsWord, hb]), List.filter_cons_of_neg (by simp [hb]), words]

/-- A brace is no blank. -/
theorem not_isBlank_of_isBrace {b : UInt8} (hb : isBrace b = true) : isBlank b = false := by
  simp only [isBrace, Bool.or_eq_true, decide_eq_true_eq] at hb
  rcases hb with rfl | rfl <;> decide

theorem not_isBrace_of_isBlank {b : UInt8} (hb : isBlank b = true) : isBrace b = false := by
  by_contra hbrace
  rw [not_isBlank_of_isBrace ((Bool.not_eq_false _).mp hbrace)] at hb
  cases hb

theorem words_brace {b : UInt8} (hb : isBrace b = true) (rest : List UInt8) :
    words (b :: rest) = [b] :: words rest := by
  rw [words, splitBy_cons (by simp [endsWord, hb]),
    List.filter_cons_of_pos (by simp [not_isBlank_of_isBrace hb]), words]

/-- A run of bytes that end no word is not split, and is parted from what follows, if the text stops or a
byte that ends words follows. -/
theorem splitBy_run {run rest : List UInt8} (hne : run ≠ []) (hrun : ∀ b ∈ run, endsWord b = false)
    (hrest : ∀ b ∈ rest.head?, endsWord b = true) :
    (run ++ rest).splitBy sameWord = run :: rest.splitBy sameWord := by
  have hs : ∀ a ∈ run.getLast?, ∀ b ∈ rest.head?, sameWord a b = false := by
    intro a _ b hb
    simp [sameWord, hrest b hb]
  -- inside the run no two neighbours are parted
  have hchain : run.IsChain fun a b => sameWord a b = true := by
    apply List.Pairwise.isChain
    rw [List.pairwise_iff_forall_sublist]
    intro a b hab
    have ha : a ∈ run := hab.subset (by simp)
    have hb : b ∈ run := hab.subset (by simp)
    simp [sameWord, hrun a ha, hrun b hb]
  rw [List.splitBy_append hs, List.splitBy_of_isChain hne hchain]
  rfl

/-- Such a run is one word. -/
theorem words_run {run rest : List UInt8} (hne : run ≠ []) (hrun : ∀ b ∈ run, endsWord b = false)
    (hrest : ∀ b ∈ rest.head?, endsWord b = true) : words (run ++ rest) = run :: words rest := by
  have hblank : run.any isBlank = false := by
    rw [List.any_eq_false]
    intro b hb
    have := hrun b hb
    simp only [endsWord, Bool.or_eq_false_iff] at this
    simp [this.1]
  rw [words, splitBy_run hne hrun hrest, List.filter_cons_of_pos (by simp [hblank]), words]

/-- The bytes up to the first that ends a word. -/
def runOf (text : List UInt8) : List UInt8 :=
  text.takeWhile fun b => !endsWord b

/-- The bytes from the first that ends a word. -/
def afterRun (text : List UInt8) : List UInt8 :=
  text.dropWhile fun b => !endsWord b

theorem runOf_append_afterRun (text : List UInt8) : runOf text ++ afterRun text = text :=
  List.takeWhile_append_dropWhile

theorem endsWord_of_mem_runOf {text : List UInt8} {b : UInt8} (h : b ∈ runOf text) :
    endsWord b = false := by
  have := List.all_eq_true.mp List.all_takeWhile b h
  simpa using this

theorem endsWord_of_mem_head?_afterRun {text : List UInt8} {b : UInt8}
    (h : b ∈ (afterRun text).head?) : endsWord b = true := by
  have := List.head?_dropWhile_not (fun b => !endsWord b) text
  unfold afterRun at h
  rw [Option.mem_def] at h
  rw [h] at this
  simpa using this

/-- **Induction from the front.** A text is empty, or begins with a blank, with a brace or with a run that
goes as far as it can. -/
theorem text_induction {P : List UInt8 → Prop} (nil : P [])
    (blank : ∀ b rest, isBlank b = true → P rest → P (b :: rest))
    (brace : ∀ b rest, isBrace b = true → P rest → P (b :: rest))
    (run : ∀ run rest, run ≠ [] → (∀ b ∈ run, endsWord b = false) →
      (∀ b ∈ rest.head?, endsWord b = true) → P rest → P (run ++ rest)) :
    ∀ text, P text := by
  intro text
  -- on the length: what follows the first byte or the first run is shorter
  induction hn : text.length using Nat.strong_induction_on generalizing text with
  | _ n ih =>
  subst hn
  match text with
  | [] => exact nil
  | b :: rest =>
    by_cases hend : endsWord b = true
    · rcases Bool.or_eq_true_iff.mp hend with hb | hb
      · exact blank b rest hb (ih _ (by simp) rest rfl)
      · exact brace b rest hb (ih _ (by simp) rest rfl)
    · rw [← runOf_append_afterRun (b :: rest)]
      have hrun : runOf (b :: rest) = b :: runOf rest := by simp [runOf, hend]
      have hshort : (afterRun (b :: rest)).length < (b :: rest).length := by
        have := congrArg List.length (runOf_append_afterRun (b :: rest))
        rw [hrun] at this
        simp only [List.length_append, List.length_cons] at this
        simp only [List.length_cons]
        omega
      exact run _ _ (by simp [hrun]) (fun _ => endsWord_of_mem_runOf)
        (fun _ => endsWord_of_mem_head?_afterRun) (ih _ hshort _ rfl)

/-! ## The end of a text -/

theorem endsInWord_append {rest : List UInt8} (front : List UInt8) (h : rest ≠ []) :
    endsInWord (front ++ rest) = endsInWord rest := by
  unfold endsInWord
  rw [List.getLast?_append_of_ne_nil _ h]

/-- A byte that ends words leaves none unfinished. -/
theorem endsInWord_cons {b : UInt8} (hb : endsWord b = true) (rest : List UInt8) :
    endsInWord (b :: rest) = endsInWord rest := by
  by_cases hr : rest = []
  · subst hr
    simp [endsInWord, hb]
  · exact endsInWord_append [b] hr

theorem endsInWord_run {run : List UInt8} (hne : run ≠ []) (hrun : ∀ b ∈ run, endsWord b = false) :
    endsInWord run = true := by
  unfold endsInWord
  rw [List.getLast?_eq_some_getLast hne, Option.any_some, hrun _ (List.getLast_mem hne)]
  rfl

/-- The word at the end of a text is one of its words. -/
theorem words_ne_nil_of_endsInWord {text : List UInt8} : endsInWord text = true → words text ≠ [] := by
  induction text using text_induction with
  | nil => intro h; simp [endsInWord] at h
  | blank b rest hb ih =>
    intro h
    rw [endsInWord_cons (by simp [endsWord, hb])] at h
    rw [words_blank hb]
    exact ih h
  | brace b rest hb ih =>
    intro _
    rw [words_brace hb]
    simp
  | run run rest hne hrun hrest ih =>
    intro _
    rw [words_run hne hrun hrest]
    simp

/-! ## Transcripts, from the front -/

/-- One more word in front. -/
def Transcript.cons (w : Word) (t : Transcript) : Transcript :=
  { t with words := w :: t.words }

namespace Delivered

variable {capacity : Nat} {failure : Option String}

theorem transcript_nil :
    transcript capacity ⟨[], failure⟩ = ⟨[], failure.map Fault.unreadable⟩ := by
  cases failure <;> rfl

/-- What is before the first word does not show. -/
theorem transcript_congr {text rest : List UInt8} (hw : words text = words rest)
    (he : endsInWord text = endsInWord rest) :
    transcript capacity ⟨text, failure⟩ = transcript capacity ⟨rest, failure⟩ := by
  simp only [transcript, hw, he]

theorem transcript_blank {b : UInt8} (hb : isBlank b = true) (rest : List UInt8) :
    transcript capacity ⟨b :: rest, failure⟩ = transcript capacity ⟨rest, failure⟩ :=
  transcript_congr (words_blank hb rest) (endsInWord_cons (by simp [endsWord, hb]) rest)

/-- A first word that is admitted and that the end does not touch is read before the others. -/
theorem transcript_cons {text rest : List UInt8} {w : Word} (hw : words text = w :: words rest)
    (hlen : w.length ≤ capacity) (he : failure = none ∨ endsInWord text = endsInWord rest) :
    transcript capacity ⟨text, failure⟩ = (transcript capacity ⟨rest, failure⟩).cons w := by
  simp only [transcript, hw, List.takeWhile_cons, hlen, decide_true, ↓reduceIte, List.length_cons,
    Nat.add_lt_add_iff_right]
  split
  · rfl
  · next hall =>
    -- every word is admitted, so only the failure can take one away, and it takes the last
    have hadm : (words rest).takeWhile (fun w => decide (w.length ≤ capacity)) = words rest := by
      apply List.IsPrefix.eq_of_length_le (List.takeWhile_prefix _)
      omega
    rw [hadm]
    cases failure with
    | none => rfl
    | some reason =>
      have he := he.resolve_left (by simp)
      by_cases hin : endsInWord rest = true
      · have hne := words_ne_nil_of_endsInWord hin
        simp [he, hin, Transcript.cons, List.dropLast_cons_of_ne_nil hne]
      · simp [he, hin, Transcript.cons]

theorem transcript_brace {b : UInt8} (hb : isBrace b = true) (hc : 1 ≤ capacity)
    (rest : List UInt8) :
    transcript capacity ⟨b :: rest, failure⟩ = (transcript capacity ⟨rest, failure⟩).cons [b] :=
  transcript_cons (words_brace hb rest) hc (.inr (endsInWord_cons (by simp [endsWord, hb]) rest))

section Run

variable {run rest : List UInt8} (hne : run ≠ []) (hrun : ∀ b ∈ run, endsWord b = false)
  (hrest : ∀ b ∈ rest.head?, endsWord b = true)

include hne hrun hrest

theorem transcript_long_run (hlen : capacity < run.length) :
    transcript capacity ⟨run ++ rest, failure⟩ = ⟨[], some .limitCheck⟩ := by
  simp [transcript, words_run hne hrun hrest, Nat.not_le.2 hlen]

theorem transcript_run (hlen : run.length ≤ capacity) (h : rest ≠ [] ∨ failure = none) :
    transcript capacity ⟨run ++ rest, failure⟩ = (transcript capacity ⟨rest, failure⟩).cons run :=
  transcript_cons (words_run hne hrun hrest) hlen (h.symm.imp_right (endsInWord_append run))

omit hrest in
/-- A run that a failure touches is not read. -/
theorem transcript_cut_run (hlen : run.length ≤ capacity) {reason : String} :
    transcript capacity ⟨run, some reason⟩ = ⟨[], some (.unreadable reason)⟩ := by
  have hw : words (run ++ []) = [run] := words_run hne hrun (by simp)
  rw [List.append_nil] at hw
  simp [transcript, hw, hlen, endsInWord_run hne hrun]

end Run

end Delivered

end TypeFour
