import LearnFramework.Lib.Machine
import LearnFramework.Lib.Stdio
import Mathlib.Data.List.GetD

/-!
# The producer

`main` of the producer as a machine. The outcomes of the calls of librdkafka and
the arrival of `SIGINT` are in the actions; what `buf` holds at the start is a
parameter, and so is `stdin`. `len` is a `size_t`, so it is a number below 2^64.

A read outside of `buf` finds whatever lies there, which is in the action. A
read from `stdin` after the handler has closed it has no effect that is defined,
so there is no such step.
-/

namespace LearnFramework.Kafka

open Machines Stdio

namespace Producer

inductive Pc where
  | start
  /-- at the test of `run` -/
  | loop
  | fgets
  /-- behind `fgets` -/
  | strip
  | retry
  | flush
  | returned (status : Nat)
  deriving DecidableEq, Repr

/-- The outcome of `rd_kafka_produce`, with `rd_kafka_last_error`. -/
inductive Outcome where
  | accepted
  | queueFull
  | failed
  deriving DecidableEq, Repr

inductive Action where
  /-- the number of arguments, and which calls of the set-up succeed -/
  | start (argc : Nat) (conf rk rkt : Bool)
  | testRun
  | fgets
  /-- with the byte that a read outside of `buf` finds -/
  | strip (stray : UInt8)
  | produce (outcome : Outcome)
  | flush
  /-- `SIGINT` -/
  | stop
  deriving DecidableEq, Repr

/-- The outcome that an action carries. -/
def Action.outcome : Action → Option Outcome
  | .produce outcome => some outcome
  | _ => none

end Producer

open Producer

structure Producer where
  pc : Producer.Pc
  run : Bool
  /-- `none` once it is closed -/
  stdin : Option (List UInt8)
  buf : Buffer 512
  len : Nat
  /-- the indices used on `buf`; of a range, the greatest -/
  indices : List Nat
  /-- what is in `buf` of the payloads handed over, with their lengths -/
  handed : List (List UInt8 × Nat)
  /-- the payloads that `rd_kafka_produce` has accepted -/
  accepted : List (List UInt8)

namespace Producer

def stop (s : Producer) : Option Producer :=
  s.stdin.map fun _ => { s with run := false, stdin := none }

def read (s : Producer) (rest : List UInt8) : Producer :=
  match Stdio.fgets s.buf rest with
  | none => { s with pc := .flush }
  | some (buf, rest') =>
    { s with
      pc := .strip
      stdin := some rest'
      buf := buf
      indices := s.indices ++ [(chunk 511 rest).length] }

/-- The end of the newline test: an empty line is skipped. -/
def stripped (s : Producer) (len : Nat) (buf : Buffer 512) (indices : List Nat) : Producer :=
  { s with
    pc := if len = 0 then .loop else .retry
    buf := buf
    len := len
    indices := s.indices ++ indices }

/-- `strlen`, and the cut of the newline. -/
def strip (s : Producer) (stray : UInt8) : Producer :=
  let len := strlen s.buf.1
  let last := (len + 2 ^ 64 - 1) % 2 ^ 64
  if s.buf.1.getD last stray = 10 then s.stripped last (s.buf.set last 0) [len, last, last]
  else s.stripped len s.buf [len, last]

/-- What `buf` holds of the payload. -/
def payload (s : Producer) : List UInt8 := s.buf.1.take s.len

def produce (s : Producer) (outcome : Outcome) : Producer :=
  let s := { s with handed := s.handed ++ [(s.payload, s.len)] }
  match outcome with
  | .accepted => { s with pc := .loop, accepted := s.accepted ++ [s.payload] }
  | .queueFull => s
  | .failed => { s with pc := .loop }

def step (s : Producer) : Action → Option Producer
  | .start argc conf rk rkt =>
    if s.pc = .start then
      some { s with pc := if argc = 3 ∧ conf ∧ rk ∧ rkt then .loop else .returned 1 }
    else none
  | .testRun =>
    if s.pc = .loop then some { s with pc := if s.run then .fgets else .flush } else none
  | .fgets => if s.pc = .fgets then s.stdin.map s.read else none
  | .strip stray => if s.pc = .strip then some (s.strip stray) else none
  | .produce outcome => if s.pc = .retry then some (s.produce outcome) else none
  | .flush => if s.pc = .flush then some { s with pc := .returned 0 } else none
  | .stop =>
    if s.pc = .start ∨ s.pc = .returned 0 ∨ s.pc = .returned 1 then none else s.stop

end Producer

def producer (stdin : List UInt8) (buf : Buffer 512) : Machine Producer Producer.Action where
  init := ⟨.start, true, some stdin, buf, 0, [], [], []⟩
  step := Producer.step

namespace Producer

/-- What the steps are. -/
inductive Step (s : Producer) : Action → Producer → Prop where
  | start (argc : Nat) (conf rk rkt : Bool) (hpc : s.pc = .start) :
      Step s (.start argc conf rk rkt)
        { s with pc := if argc = 3 ∧ conf ∧ rk ∧ rkt then .loop else .returned 1 }
  | testRun (hpc : s.pc = .loop) :
      Step s .testRun { s with pc := if s.run then .fgets else .flush }
  | fgets (rest : List UInt8) (hpc : s.pc = .fgets) (hstdin : s.stdin = some rest) :
      Step s .fgets (s.read rest)
  | strip (stray : UInt8) (hpc : s.pc = .strip) : Step s (.strip stray) (s.strip stray)
  | produce (outcome : Outcome) (hpc : s.pc = .retry) :
      Step s (.produce outcome) (s.produce outcome)
  | flush (hpc : s.pc = .flush) : Step s .flush { s with pc := .returned 0 }
  | stop (hpc : ¬(s.pc = .start ∨ s.pc = .returned 0 ∨ s.pc = .returned 1)) :
      Step s .stop { s with run := false, stdin := none }

theorem step_cases {s t : Producer} {a : Action} (h : s.step a = some t) : Step s a t := by
  cases a with
  | start argc conf rk rkt =>
    simp only [step, Option.ite_none_right_eq_some, Option.some.injEq] at h
    obtain ⟨hpc, rfl⟩ := h
    exact .start argc conf rk rkt hpc
  | testRun =>
    simp only [step, Option.ite_none_right_eq_some, Option.some.injEq] at h
    obtain ⟨hpc, rfl⟩ := h
    exact .testRun hpc
  | fgets =>
    simp only [step, Option.ite_none_right_eq_some, Option.map_eq_some_iff] at h
    obtain ⟨hpc, rest, hstdin, rfl⟩ := h
    exact .fgets rest hpc hstdin
  | strip stray =>
    simp only [step, Option.ite_none_right_eq_some, Option.some.injEq] at h
    obtain ⟨hpc, rfl⟩ := h
    exact .strip stray hpc
  | produce outcome =>
    simp only [step, Option.ite_none_right_eq_some, Option.some.injEq] at h
    obtain ⟨hpc, rfl⟩ := h
    exact .produce outcome hpc
  | flush =>
    simp only [step, Option.ite_none_right_eq_some, Option.some.injEq] at h
    obtain ⟨hpc, rfl⟩ := h
    exact .flush hpc
  | stop =>
    simp only [step, Option.ite_none_left_eq_some, stop, Option.map_eq_some_iff] at h
    obtain ⟨hpc, rest, -, rfl⟩ := h
    exact .stop hpc

/-! ## Stored lines -/

theorem strip_of_newline {s : Producer} {stray : UInt8} {len last : Nat}
    (hlen : strlen s.buf.1 = len) (hlast : (len + 2 ^ 64 - 1) % 2 ^ 64 = last)
    (h : s.buf.1.getD last stray = 10) :
    s.strip stray = s.stripped last (s.buf.set last 0) [len, last, last] := by
  subst hlen hlast
  rw [strip, if_pos h]

theorem strip_of_ne {s : Producer} {stray : UInt8} {len last : Nat}
    (hlen : strlen s.buf.1 = len) (hlast : (len + 2 ^ 64 - 1) % 2 ^ 64 = last)
    (h : s.buf.1.getD last stray ≠ 10) : s.strip stray = s.stripped len s.buf [len, last] := by
  subst hlen hlast
  rw [strip, if_neg h]

theorem length_lt_of_stored {s : Producer} {c r : List UInt8} (hbuf : s.buf.1 = c ++ 0 :: r) :
    c.length < 512 := by
  have h := s.buf.2
  rw [hbuf, List.length_append, List.length_cons] at h
  omega

/-- A stored string without newline stays as it is. -/
theorem strip_whole {s : Producer} {l r : List UInt8} (hbuf : s.buf.1 = l ++ 0 :: r) (hl : l ≠ [])
    (h0 : 0 ∉ l) (hnl : 10 ∉ l) (stray : UInt8) :
    s.strip stray = s.stripped l.length s.buf [l.length, l.length - 1] := by
  have hlt := length_lt_of_stored hbuf
  have hpos := List.length_pos_iff.mpr hl
  refine strip_of_ne (by rw [hbuf, strlen_of_notMem h0]) (by omega) ?_
  rw [hbuf, List.getD_append _ _ _ _ (by omega), List.getD_eq_getElem _ _ (by omega)]
  intro h10
  exact hnl (h10 ▸ List.getElem_mem _)

/-- A newline at the end of the stored string is overwritten. -/
theorem strip_line {s : Producer} {l r : List UInt8} (hbuf : s.buf.1 = l ++ 10 :: 0 :: r)
    (h0 : 0 ∉ l) (stray : UInt8) :
    s.strip stray = s.stripped l.length (s.buf.set l.length 0)
      [l.length + 1, l.length, l.length] := by
  have hbuf' : s.buf.1 = (l ++ [10]) ++ 0 :: r := by rw [hbuf, List.append_assoc]; rfl
  have hlt := length_lt_of_stored hbuf'
  rw [List.length_append, List.length_singleton] at hlt
  have h0' : 0 ∉ l ++ [10] := by simpa using h0
  refine strip_of_newline ?_ (by omega) ?_
  · rw [hbuf', strlen_of_notMem h0', List.length_append, List.length_singleton]
  · rw [hbuf, List.getD_append_right _ _ _ _ le_rfl, Nat.sub_self]
    rfl

/-- **A stored line** without NUL bytes loses its newline and nothing else. -/
theorem strip_text {s : Producer} {c r : List UInt8} (hbuf : s.buf.1 = c ++ 0 :: r) (hc : c ≠ [])
    (h0 : 0 ∉ c) (hnl : 10 ∉ text c) (htext : c = text c ∨ c = text c ++ [10]) (stray : UInt8) :
    ∃ buf indices, s.strip stray = s.stripped (text c).length buf indices ∧
      buf.1.take (text c).length = text c := by
  rcases htext with htext | htext
  · rw [← htext] at hnl ⊢
    refine ⟨s.buf, _, strip_whole hbuf hc h0 hnl stray, ?_⟩
    rw [hbuf, List.take_left]
  · rw [htext, List.append_assoc] at hbuf
    have h0' : 0 ∉ text c := fun h => h0 (by rw [htext]; exact List.mem_append_left _ h)
    refine ⟨_, _, strip_line hbuf h0' stray, ?_⟩
    rw [Buffer.set, List.take_set_of_le le_rfl, hbuf, List.take_left]

/-! ## Turns of the loop -/

theorem read_nil (s : Producer) : s.read [] = { s with pc := .flush } := rfl

/-- A chunk of `rest` is read. -/
def stored (s : Producer) (rest : List UInt8) : Producer :=
  { s with
    pc := .strip
    stdin := some (rest.drop (chunk 511 rest).length)
    buf := store s.buf rest
    indices := s.indices ++ [(chunk 511 rest).length] }

theorem read_of_ne_nil (s : Producer) {rest : List UInt8} (h : rest ≠ []) :
    s.read rest = s.stored rest := by
  rw [read, fgets_of_ne_nil s.buf h]
  rfl

theorem strip_stripped (s : Producer) (stray : UInt8) :
    ∃ len buf indices, s.strip stray = s.stripped len buf indices := by
  by_cases h : s.buf.1.getD ((strlen s.buf.1 + 2 ^ 64 - 1) % 2 ^ 64) stray = 10
  · exact ⟨_, _, _, strip_of_newline rfl rfl h⟩
  · exact ⟨_, _, _, strip_of_ne rfl rfl h⟩

/-- A state in which the loop goes on with `rest`. -/
structure AtLoop (s : Producer) (rest : List UInt8) : Prop where
  pc : s.pc = .loop
  run : s.run = true
  stdin : s.stdin = some rest

variable (stdin : List UInt8) (buf : Buffer 512)

/-- A line is read and cut. -/
theorem AtLoop.run_line {s : Producer} {rest : List UInt8} (h : s.AtLoop rest) (hne : rest ≠ [])
    (stray : UInt8) :
    (producer stdin buf).run s [.testRun, .fgets, .strip stray] =
      some ((s.stored rest).strip stray) := by
  have htest : step s .testRun = some { s with pc := .fgets } := by simp [step, h.pc, h.run]
  have hread : step { s with pc := .fgets } .fgets = some (s.stored rest) := by
    simp only [step, if_true, h.stdin, Option.map_some, read_of_ne_nil _ hne]
    rfl
  have hstrip : step (s.stored rest) (.strip stray) = some ((s.stored rest).strip stray) := rfl
  exact Machine.run_cons_some.mpr ⟨_, htest, Machine.run_cons_some.mpr ⟨_, hread,
    Machine.run_cons_some.mpr ⟨_, hstrip, rfl⟩⟩⟩

/-- A message is handed over until the queue takes it. -/
def retries (n : Nat) : List Action :=
  List.replicate n (.produce .queueFull) ++ [.produce .accepted]

theorem run_retries (n : Nat) {s : Producer} {rest : List UInt8} (hpc : s.pc = .retry)
    (hrun : s.run = true) (hstdin : s.stdin = some rest) :
    ∃ t : Producer, (producer stdin buf).run s (retries n) = some t ∧ t.AtLoop rest := by
  induction n generalizing s with
  | zero =>
    refine ⟨s.produce .accepted, ?_, rfl, hrun, hstdin⟩
    simp [retries, Machine.run_cons, producer, step, hpc]
  | succ n ih =>
    obtain ⟨t, ht, hloop⟩ := ih (s := s.produce .queueFull) hpc hrun hstdin
    refine ⟨t, ?_, hloop⟩
    rw [retries, List.replicate_succ, List.cons_append, Machine.run_cons]
    simp only [producer, step, if_pos hpc, Option.bind_some]
    exact ht

end Producer

end LearnFramework.Kafka
