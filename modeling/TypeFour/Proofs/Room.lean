import TypeFour.Proofs.Failures
import TypeFour.Proofs.Invariants
import TypeFour.Proofs.Lockstep

/-!
# `TypeFour.Proofs.Room` — a stack never outgrows its limit

A stack that is new is empty. Whatever is done to it then, by actions, operators and replays that may fail or
never end, it holds no more values than its limit allows, and not only when an operator is done: every action
is put together from six primitive ones, and the bound holds after each of them, in every replay inside a
replay. Two of the six make the stack higher. A push looks whether there is room for one value; a copy adds
many values at once, and looks whether there is room for all of them.

Most operators push no more than they have taken off, so they cannot fail for want of room. Only `dup` and
`copy` can, and the instructions of a procedure that `if` or `ifelse` replays.

## Contents
- `Primitive`, `Course` — the stacks that an action comes to, one after each primitive action.
- `Stack.Within`, `Primitive.within`, `Course.within` — the bound, kept by each of them.
- `Charted`, `Composed.charted` — every operator has such a course.
- `OwnCourse`, `PassedIn`, `withinLimit` — the stacks that instructions and replays come to.
- `Method`, `Used`, `Passed` — what may be done to a stack, and all that it comes to.
- `OverflowsInside`, `overflow_cases` — what fails for want of room.
- `used_within` — all of it; `used_within_longBranch` — a branch that is too long for the stack.
-/

namespace TypeFour

variable {e : Elementary} {n : Nat} {α β : Type}

/-! ## Primitive actions -/

/-- The actions that touch the stack. All others are put together from these. -/
inductive Primitive : {α : Type} → Action α → Prop where
  | push (v : Value) : Primitive (Stack.push v)
  | pop : Primitive Stack.pop
  | peek (n : Nat) : Primitive (Stack.peek n)
  | exch : Primitive Stack.exch
  | copy (n : Nat) : Primitive (Stack.copy n)
  | roll (n : Nat) (j : Int) : Primitive (Stack.roll n j)

theorem Primitive.composed {act : Action α} (h : Primitive act) : Composed True act := by
  cases h with
  | push v => exact .push trivial v
  | pop => exact .pop
  | peek n => exact .peek n
  | exch => exact .exch
  | copy n => exact .copy trivial n
  | roll n j => exact .roll n j

/-- From the stack `s`, an action that is put together from primitive ones comes to these stacks, one after
each primitive action, up to the first that fails. -/
inductive Course : {α : Type} → Action α → Stack → List Stack → Prop where
  | primitive {α : Type} {act : Action α} {s : Stack} : Primitive act → Course act s [act.left s]
  | pure {α : Type} (a : α) (s : Stack) : Course (Pure.pure a) s []
  | throw {α : Type} (f : Fault) (s : Stack) : Course (MonadExcept.throw f : Action α) s []
  | stop {α β : Type} {m : Action α} {k : α → Action β} {s t : Stack} {f : Fault} {us : List Stack} :
      Course m s us → m s = .error f t → Course (m >>= k) s us
  | next {α β : Type} {m : Action α} {k : α → Action β} {s t : Stack} {a : α} {us vs : List Stack} :
      Course m s us → m s = .ok a t → Course (k a) t vs → Course (m >>= k) s (us ++ vs)

/-- The stack that an action leaves is among those that it comes to, if it is not the one it began with. -/
theorem Course.left_mem {act : Action α} {s : Stack} {us : List Stack} (h : Course act s us) :
    act.left s ∈ s :: us := by
  induction h with
  | primitive _ => exact List.mem_cons_of_mem _ List.mem_cons_self
  | pure a s => exact List.mem_cons_self
  | throw f s => exact List.mem_cons_self
  | stop _ hm ih =>
    rw [Action.left_of_error hm] at ih
    rwa [Action.left_bind, hm]
  | next _ hm _ ihm ihk =>
    rw [Action.left_of_ok hm] at ihm
    rw [Action.left_bind, hm]
    simp only [List.mem_cons, List.mem_append] at ihm ihk ⊢
    rcases ihk with hlast | hlast
    · rw [hlast]
      exact ihm.imp_right .inl
    · exact .inr (.inr hlast)

/-! ## The bound -/

/-- The stack has this limit, and it holds no more values than that. -/
structure Stack.Within (limit : Option Nat) (s : Stack) : Prop where
  limit_eq : s.limit = limit
  room : s.hasRoom 0 = true

namespace Stack.Within

variable {limit : Option Nat} {s : Stack}

theorem size_le {m : Nat} (h : s.Within (some m)) : s.size ≤ m :=
  hasRoom_iff.mp h.room m h.limit_eq

/-- Other values, for which there is room. -/
theorem of_length (h : s.Within limit) {items : List Value} {k : Nat} (hk : s.hasRoom k = true)
    (hitems : items.length ≤ s.size + k) : Stack.Within limit { s with items } := by
  refine ⟨h.limit_eq, hasRoom_iff.mpr fun m hm => ?_⟩
  exact Nat.le_trans hitems (hasRoom_iff.mp hk m hm)

theorem push (h : s.Within limit) (v : Value) : Stack.Within limit ((Stack.push v).left s) := by
  unfold Action.left Stack.push
  by_cases hroom : s.hasRoom 1 = true
  · rw [if_pos hroom]
    exact h.of_length hroom (Nat.le_refl _)
  · rwa [if_neg hroom]

theorem copy (h : s.Within limit) (n : Nat) : Stack.Within limit ((Stack.copy n).left s) := by
  unfold Action.left Stack.copy
  by_cases hn : s.size < n
  · rwa [if_pos hn]
  rw [if_neg hn]
  by_cases hroom : s.hasRoom n = true
  · rw [if_pos hroom]
    refine h.of_length hroom ?_
    rw [List.length_append, Nat.add_comm]
    exact Nat.add_le_add_left (List.length_take_le n _) _
  · rwa [if_neg hroom]

theorem pop (h : s.Within limit) : Stack.Within limit (Stack.pop.left s) := by
  unfold Action.left Stack.pop
  cases hs : s.items with
  | nil => exact h
  | cons v vs =>
    refine h.of_length h.room ?_
    rw [Stack.size, hs]
    exact Nat.le_succ _

theorem peek (h : s.Within limit) (n : Nat) : Stack.Within limit ((Stack.peek n).left s) := by
  unfold Action.left Stack.peek
  cases s.items[n]? <;> exact h

theorem exch (h : s.Within limit) : Stack.Within limit (Stack.exch.left s) := by
  unfold Action.left Stack.exch
  match hs : s.items with
  | [] | [_] => exact h
  | v :: w :: vs =>
    refine h.of_length h.room ?_
    rw [Stack.size, hs]
    exact Nat.le_refl _

theorem roll (h : s.Within limit) (n : Nat) (j : Int) : Stack.Within limit ((Stack.roll n j).left s) := by
  unfold Action.left Stack.roll
  by_cases hn : s.size < n
  · rwa [if_pos hn]
  · rw [if_neg hn]
    refine h.of_length h.room (Nat.le_of_eq ?_)
    -- a window that is turned is as long as before
    have hturned (ws : List Value) (k : Nat) : (ws.drop k ++ ws.take k).length = ws.length := by
      rw [List.length_append, Nat.add_comm, ← List.length_append, List.take_append_drop]
    rw [List.length_append, hturned, ← List.length_append, List.take_append_drop]
    rfl

end Stack.Within

/-- **Each primitive action** keeps the bound. -/
theorem Primitive.within {limit : Option Nat} {act : Action α} (h : Primitive act) {s : Stack}
    (hs : s.Within limit) : Stack.Within limit (act.left s) := by
  cases h with
  | push v => exact hs.push v
  | pop => exact hs.pop
  | peek n => exact hs.peek n
  | exch => exact hs.exch
  | copy n => exact hs.copy n
  | roll n j => exact hs.roll n j

/-- **All along the way** of an action the bound holds. -/
theorem Course.within {limit : Option Nat} {act : Action α} {s : Stack} {us : List Stack} (h : Course act s us)
    (hs : s.Within limit) : ∀ u ∈ us, u.Within limit := by
  induction h with
  | primitive hact =>
    intro u hu
    rw [List.mem_singleton.mp hu]
    exact hact.within hs
  | pure a s => exact List.forall_mem_nil _
  | throw f s => exact List.forall_mem_nil _
  | stop _ _ ih => exact ih hs
  | @next _ _ m k s t a us vs hfirst hm _ ihm ihk =>
    -- the second action begins where the first has come to
    have hbetween := hfirst.left_mem
    rw [Action.left_of_ok hm] at hbetween
    have ht : t.Within limit := by
      rcases List.mem_cons.mp hbetween with rfl | hmem
      · exact hs
      · exact ihm hs _ hmem
    intro u hu
    rcases List.mem_append.mp hu with hu | hu
    · exact ihm hs u hu
    · exact ihk ht u hu

/-! ## Operators -/

/-- The action has a course, wherever it begins. -/
def Charted (act : Action α) : Prop :=
  ∀ s, ∃ us, Course act s us

namespace Charted

theorem within {limit : Option Nat} {act : Action α} (h : Charted act) {s : Stack} (hs : s.Within limit) :
    Stack.Within limit (act.left s) := by
  obtain ⟨us, hcourse⟩ := h s
  rcases List.mem_cons.mp hcourse.left_mem with heq | hmem
  · rwa [heq]
  · exact hcourse.within hs _ hmem

theorem primitive {act : Action α} (h : Primitive act) : Charted act :=
  fun _ => ⟨_, .primitive h⟩

theorem pure (a : α) : Charted (Pure.pure a) :=
  fun s => ⟨[], .pure a s⟩

theorem throw (f : Fault) : Charted (MonadExcept.throw f : Action α) :=
  fun s => ⟨[], .throw f s⟩

theorem bind {m : Action α} {k : α → Action β} (hm : Charted m) (hk : ∀ a, Charted (k a)) :
    Charted (m >>= k) := by
  intro s
  obtain ⟨us, hus⟩ := hm s
  cases hr : m s with
  | error f t => exact ⟨us, .stop hus hr⟩
  | ok a t =>
    obtain ⟨vs, hvs⟩ := hk a t
    exact ⟨us ++ vs, .next hus hr hvs⟩

end Charted

/-- **Actions put together from primitive ones** are charted. -/
theorem Composed.charted {pushes : Prop} {act : Action α} (h : Composed pushes act) : Charted act := by
  induction h with
  | push _ v => exact .primitive (.push v)
  | copy _ n => exact .primitive (.copy n)
  | pop => exact .primitive .pop
  | peek n => exact .primitive (.peek n)
  | exch => exact .primitive .exch
  | roll n j => exact .primitive (.roll n j)
  | pure a => exact .pure a
  | throw _ => exact .throw _
  | bind _ _ ihm ihk => exact .bind ihm ihk

/-! ## Replays -/

/-- The stacks that an instruction comes to by itself, apart from what it replays. -/
inductive OwnCourse (e : Elementary) : Instruction → Stack → List Stack → Prop where
  | push {v : Value} {s : Stack} {us : List Stack} :
      Course (Stack.push v) s us → OwnCourse e v.toInstruction s us
  | plain {op : Operator} {act : Action Unit} {s : Stack} {us : List Stack} :
      op.behaviour e = .plain act → Course act s us → OwnCourse e (.operator op) s us
  | choosing {op : Operator} {choice : Action (Option Procedure)} {s : Stack} {us : List Stack} :
      op.behaviour e = .choosing choice → Course choice s us → OwnCourse e (.operator op) s us

/-- Every instruction has such a course, wherever it begins. -/
theorem exists_ownCourse (e : Elementary) (i : Instruction) (s : Stack) : ∃ us, OwnCourse e i s us := by
  cases i with
  | number x => exact ⟨_, .push (v := .number x) (.primitive (.push _))⟩
  | boolean b => exact ⟨_, .push (v := .boolean b) (.primitive (.push _))⟩
  | block origin body => exact ⟨_, .push (v := .procedure ⟨origin, body⟩) (.primitive (.push _))⟩
  | operator op =>
    cases hb : op.behaviour e with
    | plain act =>
      obtain ⟨us, hus⟩ := (composed_of_plain hb).charted s
      exact ⟨us, .plain hb hus⟩
    | choosing choice =>
      obtain ⟨us, hus⟩ := (composed_of_choosing hb).charted s
      exact ⟨us, .choosing hb hus⟩

theorem OwnCourse.within {limit : Option Nat} {i : Instruction} {s : Stack} {us : List Stack}
    (h : OwnCourse e i s us) (hs : s.Within limit) : ∀ u ∈ us, u.Within limit := by
  cases h with
  | push hcourse => exact hcourse.within hs
  | plain _ hcourse => exact hcourse.within hs
  | choosing _ hcourse => exact hcourse.within hs

/-- Carrying out `body` from `s` comes to the stack `u`, in one of its instructions or in the replay of a
procedure that one of them chooses. -/
inductive PassedIn (e : Elementary) : List Instruction → Stack → Stack → Prop where
  | here {body before after : List Instruction} {i : Instruction} {s t u : Stack} {n : Nat} {us : List Stack} :
      body = before ++ i :: after → replay e n before s = some (.ok () t) → OwnCourse e i t us → u ∈ us →
      PassedIn e body s u
  | within {body : List Instruction} {s t u : Stack} {p : Procedure} :
      Chosen e body s p t → PassedIn e p.body t u → PassedIn e body s u

/-- **Operators and replays** keep the bound. -/
def withinLimit (e : Elementary) (limit : Option Nat) : Invariant e where
  holds := Stack.Within limit
  admits _ := True
  push _ hs := hs.push _
  plain hb hs := (composed_of_plain hb).charted.within hs
  choosing hb hs := (composed_of_choosing hb).charted.within hs
  chosen _ _ _ _ := trivial

/-- **All along the way** of a replay the bound holds. -/
theorem PassedIn.within_limit {limit : Option Nat} {body : List Instruction} {s u : Stack}
    (h : PassedIn e body s u) (hs : s.Within limit) : u.Within limit := by
  induction h with
  | @here _ before _ i s t u n us _ hbefore hcourse hu =>
    have ht : t.Within limit :=
      (withinLimit e limit).replay n before s t (fun _ _ => trivial) hs (hbefore ▸ .ok)
    exact hcourse.within ht u hu
  | within hchosen _ ih =>
    obtain ⟨-, ht⟩ := (withinLimit e limit).chosenIn hchosen (fun _ _ => trivial) hs
    exact ih ht

/-! ### Where runs end -/

section

variable {op : Operator} {i : Instruction} {is body : List Instruction} {s t u : Stack}

/-- An operator leaves what it comes to by itself, or what is left by the replay of a procedure that it
chooses. -/
theorem execute_leaves (h : (execute e (replay e n) op s).Leaves t) :
    ∃ us, OwnCourse e (.operator op) s us ∧ (t ∈ s :: us ∨
      ∃ p u, op.Chooses e s p u ∧ u ∈ s :: us ∧ (replay e n p.body u).Leaves t) := by
  unfold execute at h
  cases hb : op.behaviour e with
  | plain act =>
    obtain ⟨us, hus⟩ := (composed_of_plain hb).charted s
    rw [hb] at h
    refine ⟨us, .plain hb hus, .inl ?_⟩
    rw [← Run.Leaves.left_eq h]
    exact hus.left_mem
  | choosing choice =>
    obtain ⟨us, hus⟩ := (composed_of_choosing hb).charted s
    have hleft := hus.left_mem
    rw [hb] at h
    simp only at h
    refine ⟨us, .choosing hb hus, ?_⟩
    cases hc : choice s with
    | error f u =>
      rw [hc] at h
      cases h
      rw [Action.left_of_error hc] at hleft
      exact .inl hleft
    | ok c u =>
      rw [hc] at h
      rw [Action.left_of_ok hc] at hleft
      cases c with
      | none =>
        cases h
        exact .inl hleft
      | some p => exact .inr ⟨p, u, ⟨choice, hb, hc⟩, hleft, h⟩

theorem passed_of_ownCourse {us : List Stack} (h : OwnCourse e i s us) (ht : t ∈ s :: us) :
    t = s ∨ PassedIn e (i :: is) s t := by
  refine (List.mem_cons.mp ht).imp_right fun hmem => ?_
  have hnone : replay e 1 [] s = some (.ok () s) := rfl
  exact .here rfl hnone h hmem

theorem PassedIn.cons (hi : perform e (replay e n) i s = some (.ok () u)) (h : PassedIn e is u t) :
    PassedIn e (i :: is) s t := by
  cases h with
  | here hsplit hbefore hcourse ht =>
    subst hsplit
    exact .here rfl (replay_cons_of_ok hi hbefore) hcourse ht
  | within hchosen ht => exact .within (hchosen.cons hi) ht

/-- What an instruction leaves is passed by it, if replays leave what they pass. -/
theorem passed_of_perform (hagain : ∀ body s t, (replay e n body s).Leaves t → t = s ∨ PassedIn e body s t)
    (h : (perform e (replay e n) i s).Leaves t) : t = s ∨ PassedIn e (i :: is) s t := by
  have hpush (v : Value) (h : Run.Leaves (some (Stack.push v s)) t) :
      t = s ∨ PassedIn e (v.toInstruction :: is) s t := by
    have hcourse : Course (Stack.push v) s [(Stack.push v).left s] := .primitive (.push v)
    rw [h.left_eq] at hcourse
    exact passed_of_ownCourse (.push hcourse) (List.mem_cons_of_mem _ List.mem_cons_self)
  cases i with
  | number x => exact hpush (.number x) h
  | boolean b => exact hpush (.boolean b) h
  | block origin body => exact hpush (.procedure ⟨origin, body⟩) h
  | operator op =>
    obtain ⟨us, hus, ht | ⟨p, u, hchooses, hu, ht⟩⟩ := execute_leaves h
    · exact passed_of_ownCourse hus ht
    · rcases hagain p.body u t ht with rfl | ht
      · exact passed_of_ownCourse hus hu
      · exact .inr (.within (hchooses.chosen is) ht)

/-- **What a replay leaves** is passed in it. -/
theorem passed_of_leaves (h : (replay e n body s).Leaves t) : t = s ∨ PassedIn e body s t := by
  -- on the bound, and under it on the instructions
  induction n generalizing body s t with
  | zero => cases h
  | succ n ih =>
    induction body generalizing s with
    | nil =>
      cases h
      exact .inl rfl
    | cons i is ihis =>
      change (runAll (perform e (replay e n)) (i :: is) s).Leaves t at h
      rw [runAll] at h
      cases hi : perform e (replay e n) i s with
      | none =>
        rw [hi] at h
        cases h
      | some r =>
        have hfirst (u : Stack) (hu : Run.Leaves (some r) u) : u = s ∨ PassedIn e (i :: is) s u :=
          passed_of_perform (fun _ _ _ => ih) (hi ▸ hu)
        rw [hi] at h
        cases r with
        | error f u => exact hfirst t h
        | ok _ u =>
          rcases ihis h with rfl | hrest
          · exact hfirst t .ok
          · exact .inr (.cons hi hrest)

end

/-! ## A stack in use -/

/-- The actions that a stack offers. -/
inductive Method : {α : Type} → Action α → Prop where
  | primitive {α : Type} {act : Action α} : Primitive act → Method act
  | popNumber : Method Stack.popNumber
  | popBoolean : Method Stack.popBoolean
  | popProcedure : Method Stack.popProcedure
  | popInteger : Method Stack.popInteger
  | popCount : Method Stack.popCount
  | dup : Method Stack.dup
  | index (n : Nat) : Method (Stack.index n)

theorem Method.composed {act : Action α} (h : Method act) : Composed True act := by
  cases h with
  | primitive hact => exact hact.composed
  | popNumber => exact .popNumber
  | popBoolean => exact .popBoolean
  | popProcedure => exact .popProcedure
  | popInteger => exact .popInteger
  | popCount => exact .popCount
  | dup => exact .index 0
  | index n => exact .index n

/-- The stack is what a new one with this limit has become, by actions, operators and replays in any order,
each of which succeeded or failed. -/
inductive Used (e : Elementary) (limit : Option Nat) : Stack → Prop where
  | new : Used e limit { limit }
  | method {α : Type} {act : Action α} {s : Stack} : Used e limit s → Method act → Used e limit (act.left s)
  | operator {op : Operator} {s t : Stack} {n : Nat} :
      Used e limit s → (execute e (replay e n) op s).Leaves t → Used e limit t
  | replay {p : Procedure} {s t : Stack} {n : Nat} :
      Used e limit s → (TypeFour.replay e n p.body s).Leaves t → Used e limit t

/-- The stack is one that a stack in use comes to along the way: after a primitive action of what is done to
it, or inside a replay, which need not end. -/
inductive Passed (e : Elementary) (limit : Option Nat) : Stack → Prop where
  | method {α : Type} {act : Action α} {s u : Stack} {us : List Stack} :
      Used e limit s → Method act → Course act s us → u ∈ us → Passed e limit u
  | operator {op : Operator} {s u : Stack} {us : List Stack} :
      Used e limit s → OwnCourse e (.operator op) s us → u ∈ us → Passed e limit u
  | chosen {op : Operator} {p : Procedure} {s t u : Stack} :
      Used e limit s → op.Chooses e s p t → PassedIn e p.body t u → Passed e limit u
  | replay {p : Procedure} {s u : Stack} : Used e limit s → PassedIn e p.body s u → Passed e limit u

section

variable {limit : Option Nat} {s u : Stack}

theorem Used.within (h : Used e limit s) : s.Within limit := by
  induction h with
  | new => exact ⟨rfl, by cases limit <;> rfl⟩
  | method _ hact ih => exact hact.composed.charted.within ih
  | operator _ ht ih => exact (withinLimit e limit).execute ih ht
  | replay _ ht ih => exact (withinLimit e limit).replay _ _ _ _ (fun _ _ => trivial) ih ht

theorem Passed.within (h : Passed e limit u) : u.Within limit := by
  cases h with
  | method hs _ hcourse hu => exact hcourse.within hs.within u hu
  | operator hs hcourse hu => exact hcourse.within hs.within u hu
  | chosen hs hchooses hu =>
    obtain ⟨-, ht⟩ := (withinLimit e limit).chooses hchooses hs.within
    exact hu.within_limit ht
  | replay hs hu => exact hu.within_limit hs.within

/-- A stack in use is a new one, or one that it came to along the way. -/
theorem Used.new_or_passed (h : Used e limit s) : s = { limit } ∨ Passed e limit s := by
  induction h with
  | new => exact .inl rfl
  | @method _ act s hs hact ih =>
    obtain ⟨us, hus⟩ := hact.composed.charted s
    rcases List.mem_cons.mp hus.left_mem with heq | hmem
    · rwa [heq]
    · exact .inr (.method hs hact hus hmem)
  | @operator op s t n hs ht ih =>
    obtain ⟨us, hus, hmem⟩ := execute_leaves ht
    have hown (u : Stack) (hu : u ∈ s :: us) : u = { limit } ∨ Passed e limit u := by
      rcases List.mem_cons.mp hu with rfl | hu
      · exact ih
      · exact .inr (.operator hs hus hu)
    rcases hmem with hmem | ⟨p, u, hchooses, hu, ht⟩
    · exact hown t hmem
    · rcases passed_of_leaves ht with rfl | ht
      · exact hown t hu
      · exact .inr (.chosen hs hchooses ht)
  | replay hs ht ih =>
    rcases passed_of_leaves ht with rfl | ht
    · exact ih
    · exact .inr (.replay hs ht)

end

/-! ## Overflow -/

section

variable {op : Operator} {s t : Stack}

/-- Under a bound of `n` replays, an instruction of the procedure that the operator chooses fails for want of
room. -/
def OverflowsInside (e : Elementary) (n : Nat) (op : Operator) (s t : Stack) : Prop :=
  ∃ p u before i after v k, op.Chooses e s p u ∧ p.body = before ++ i :: after ∧ n = k + 1 ∧
    replay e n before u = some (.ok () v) ∧ perform e (replay e k) i v = some (.error .stackOverflow t)

/-- What `index` pushes has room in place of the count. -/
theorem index_ne_stackOverflow {f : Fault} (hroom : s.hasRoom 0 = true)
    (h : Behaviour.counted Stack.index s = .error f t) : f ≠ .stackOverflow := by
  obtain hc | ⟨k, u, hc, h⟩ := Action.error_of_bind h
  · exact Composed.popCount.arranges.ne_stackOverflow hc
  · obtain ⟨hsize, rfl⟩ := Takes.popCount.ok hc
    have hroom' : (s.without 1).hasRoom 1 = true := by
      refine Stack.hasRoom_iff.mpr fun m hm => ?_
      have hle := Stack.hasRoom_iff.mp hroom m hm
      rw [Stack.size_without]
      omega
    cases hv : (s.without 1).items[k]? with
    | none =>
      rw [Stack.index_of_le (List.getElem?_eq_none_iff.mp hv)] at h
      cases h
      nofun
    | some v =>
      rw [Stack.index_of_getElem? hv, Stack.push, if_pos hroom'] at h
      cases h

/-- **Of the operators that act**, only `dup` and `copy` fail for want of room. -/
theorem overflow_of_plain {act : Action Unit} (hb : op.behaviour e = .plain act) (hroom : s.hasRoom 0 = true)
    (h : act s = .error .stackOverflow t) : op = .dup ∨ op = .copy := by
  obtain ⟨k, -, hact⟩ | ⟨hcopy, -⟩ | ⟨-, hact⟩ := plain_cases (R := fun _ _ => True) hb
    (fun _ _ _ => trivial) (fun _ _ => trivial) (fun _ _ => trivial)
  · -- at least one value has made room
    have hnone : 1 - (k + 1) = 0 := by omega
    exact absurd rfl (hact.ne_stackOverflow (hnone ▸ hroom) h)
  · cases op with
    | dup => exact .inl rfl
    | copy => exact .inr rfl
    | index =>
      cases hb
      exact absurd rfl (index_ne_stackOverflow hroom h)
    | _ => cases hcopy
  · exact absurd rfl (hact.ne_stackOverflow h)

/-- **Who fails for want of room**, on a stack within its limit: `dup`, `copy`, or an instruction of the
procedure that `if` or `ifelse` replays. -/
theorem overflow_cases (hroom : s.hasRoom 0 = true)
    (h : execute e (replay e n) op s = some (.error .stackOverflow t)) :
    op = .dup ∨ op = .copy ∨ (op = .ifTrue ∨ op = .ifElse) ∧ OverflowsInside e n op s t := by
  unfold execute at h
  cases hb : op.behaviour e with
  | plain act =>
    rw [hb] at h
    exact (overflow_of_plain hb hroom (Option.some.inj h)).imp_right .inl
  | choosing choice =>
    obtain ⟨hop, harranges⟩ := arranges_of_choosing hb
    rw [hb] at h
    simp only at h
    cases hc : choice s with
    | error f u =>
      rw [hc] at h
      cases h
      exact absurd rfl (harranges.ne_stackOverflow hc)
    | ok c u =>
      rw [hc] at h
      cases c with
      | none => cases h
      | some p =>
        cases n with
        | zero => cases h
        | succ k =>
          obtain ⟨before, i, after, v, hbody, hbefore, hi⟩ := runAll_stops h nofun
          exact .inr (.inr ⟨hop, p, u, before, i, after, v, k, ⟨choice, hb, hc⟩, hbody, rfl, hbefore, hi⟩)

end

/-- **A stack with a limit**, whatever is done to it. It never holds more values than that, neither when an
action, an operator or a replay is done nor at any moment on the way, in replays that end or do not; and these
moments are all: a stack that is not new is one of them. And on a stack within its limit, if it has one, no
operator fails for want of room but `dup`, `copy`, and `if` and `ifelse` in an instruction of the procedure
that they replay. -/
theorem used_within (e : Elementary) (m : Nat) :
    (∀ s, Used e (some m) s → s.size ≤ m) ∧
    (∀ u, Passed e (some m) u → u.size ≤ m) ∧
    (∀ s, Used e (some m) s → s = { limit := some m } ∨ Passed e (some m) s) ∧
    ∀ (s : Stack) (op : Operator) (n : Nat) (t : Stack), s.hasRoom 0 = true →
      execute e (replay e n) op s = some (.error .stackOverflow t) →
      op = .dup ∨ op = .copy ∨ (op = .ifTrue ∨ op = .ifElse) ∧ OverflowsInside e n op s t := by
  refine ⟨?_, ?_, ?_, ?_⟩
  · intro s hs
    exact hs.within.size_le
  · intro u hu
    exact hu.within.size_le
  · intro s hs
    exact hs.new_or_passed
  · intro s op n t hroom h
    exact overflow_cases hroom h

/-! ### A branch that is too long -/

/-- The block `{true true dup}`. -/
def longBranch : Procedure :=
  ⟨0, [.boolean true, .boolean true, .operator .dup]⟩

/-- A stack for two values, with the operands of `if` on it. -/
def underLongBranch : Stack :=
  ⟨[.procedure longBranch, .boolean true], some 2⟩

theorem used_underLongBranch : Used .machine (some 2) underLongBranch :=
  .method (.method .new (.primitive (.push (.boolean true)))) (.primitive (.push (.procedure longBranch)))

/-- The branch fills the stack, and its `dup` fails for want of room. -/
theorem used_within_longBranch :
    underLongBranch.size ≤ 2 ∧
      execute .machine (replay .machine 1) .ifTrue underLongBranch =
        some (.error .stackOverflow ⟨[.boolean true, .boolean true], some 2⟩) ∧
      OverflowsInside .machine 1 .ifTrue underLongBranch ⟨[.boolean true, .boolean true], some 2⟩ := by
  obtain ⟨hused, -, -, hoverflow⟩ := used_within .machine 2
  have hfails : execute .machine (replay .machine 1) .ifTrue underLongBranch =
      some (.error .stackOverflow ⟨[.boolean true, .boolean true], some 2⟩) := rfl
  refine ⟨hused _ used_underLongBranch, hfails, ?_⟩
  obtain hdup | hcopy | ⟨-, hinside⟩ := hoverflow _ _ _ _ rfl hfails
  · cases hdup
  · cases hcopy
  · exact hinside

end TypeFour
