/-!
# `TypeFour.Source` — where the bytes come from

A source is a script: the deliveries it will make, in order, and the most bytes that a single read
brings. A read brings bytes of one chunk only, never more than there is room for; what it leaves of
the chunk stays for the next read. A read may also be interrupted, which means nothing and is tried
again, or fail. A read that brings no byte means the end of the data, and so does the end of the
script.

## Contents
- `Delivery`, `Source` — the script.
- `Source.read` — one read.
- `Source.await` — reads until one is not interrupted.
- `Source.size` — how many bytes are still to come.
-/

namespace TypeFour

/-- One thing that a source does when it is read. -/
inductive Delivery where
  /-- Some bytes at once; a chunk without bytes is passed over. -/
  | chunk (bytes : List UInt8)
  /-- One read is interrupted. -/
  | interruption
  /-- One read brings nothing. -/
  | endOfData
  /-- One read fails. -/
  | failure (reason : String)

/-- The deliveries still to come, and the most bytes that one read brings. -/
structure Source where
  script : List Delivery
  most : Option Nat := none

/-- What one read comes to. -/
inductive Reply where
  | received (bytes : List UInt8)
  | interrupted
  | failed (reason : String)

namespace Source

/-- A source that has all its bytes ready. -/
def ofBytes (bytes : List UInt8) : Source where
  script := [.chunk bytes]

/-- One read of at most `n` bytes: the reply, and the script that is left. -/
def readScript (n : Nat) : List Delivery → Reply × List Delivery
  | [] => (.received [], [])
  | .chunk [] :: rest => readScript n rest
  | .chunk (b :: bs) :: rest => (.received ((b :: bs).take n), .chunk ((b :: bs).drop n) :: rest)
  | .interruption :: rest => (.interrupted, rest)
  | .endOfData :: rest => (.received [], rest)
  | .failure reason :: rest => (.failed reason, rest)

/-- One read into `room` free places. -/
def read (room : Nat) (s : Source) : Reply × Source :=
  let n := match s.most with
    | some most => min room most
    | none => room
  let (reply, rest) := readScript n s.script
  (reply, { s with script := rest })

/-! ## Sizes -/

/-- How many bytes a script holds. -/
def scriptSize : List Delivery → Nat
  | [] => 0
  | .chunk bytes :: rest => bytes.length + scriptSize rest
  | _ :: rest => scriptSize rest

/-- How many bytes are still to come. -/
def size (s : Source) : Nat :=
  scriptSize s.script

/-- How many bytes a reply brings. -/
def Reply.size : Reply → Nat
  | .received bytes => bytes.length
  | _ => 0

/-- A read takes from the script what it brings, and nothing else. -/
theorem readScript_size (n : Nat) (script : List Delivery) :
    Reply.size (readScript n script).1 + scriptSize (readScript n script).2 ≤
      scriptSize script := by
  induction script with
  | nil => simp [readScript, Reply.size, scriptSize]
  | cons d rest ih =>
    match d with
    | .chunk [] => simpa [readScript, scriptSize] using ih
    | .chunk (b :: bs) => simp [readScript, Reply.size, scriptSize]; omega
    | .interruption => simp [readScript, Reply.size, scriptSize]
    | .endOfData => simp [readScript, Reply.size, scriptSize]
    | .failure _ => simp [readScript, Reply.size, scriptSize]

theorem read_size (room : Nat) (s : Source) :
    Reply.size (s.read room).1 + (s.read room).2.size ≤ s.size :=
  readScript_size _ _

/-- An interruption is used up by the read that it interrupts. -/
theorem readScript_length_lt {n : Nat} {script rest : List Delivery}
    (h : readScript n script = (.interrupted, rest)) : rest.length < script.length := by
  induction script with
  | nil => simp [readScript] at h
  | cons d ds ih =>
    match d with
    | .chunk [] => exact Nat.lt_succ_of_lt (ih h)
    | .chunk (b :: bs) => simp [readScript] at h
    | .interruption => simp only [readScript, Prod.mk.injEq, true_and] at h; simp [h]
    | .endOfData => simp [readScript] at h
    | .failure _ => simp [readScript] at h

theorem read_length_lt {room : Nat} {s s' : Source} (h : s.read room = (.interrupted, s')) :
    s'.script.length < s.script.length := by
  simp only [read, Prod.mk.injEq] at h
  obtain ⟨h₁, rfl⟩ := h
  exact readScript_length_lt (Prod.ext h₁ rfl)

/-! ## Waiting -/

/-- Reads until a read is not interrupted: the bytes it brings, or why it failed. -/
def await (room : Nat) (s : Source) : Except String (List UInt8) × Source :=
  match _h : s.read room with
  | (.received bytes, s') => (.ok bytes, s')
  | (.failed reason, s') => (.error reason, s')
  | (.interrupted, s') => await room s'
termination_by s.script.length
decreasing_by exact read_length_lt ‹_›

/-- Waiting takes from the source the bytes it brings. -/
theorem await_size {room : Nat} {s s' : Source} {bytes : List UInt8}
    (h : s.await room = (.ok bytes, s')) : bytes.length + s'.size ≤ s.size := by
  fun_induction await room s with
  | case1 s received s₁ hr =>
    have := read_size room s
    simp_all [Reply.size]
  | case2 => simp at h
  | case3 s s₁ hr ih =>
    have := read_size room s
    simp only [hr, Reply.size] at this
    have := ih h
    omega

end Source

end TypeFour
