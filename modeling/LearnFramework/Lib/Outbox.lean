import LearnFramework.Lib.Machine
import Mathlib.Data.List.Basic

/-!
# Outboxes

Messages are handed over in order to a queue that may be full. Each attempt has a reply:
the queue takes the message, it refuses it for good, or it is full and the next attempt is
at the same message. Each reply other than `full` decides a message: the messages taken are the
ones in front whose reply was `taken`, and the message of an attempt is the one behind
those decided before (`sent_of_run`).
-/

namespace Outboxes

open Machines

inductive Reply where
  | taken
  | full
  | refused
  deriving DecidableEq, Repr

/-- The reply decides about the message. -/
def Reply.decides : Reply → Bool
  | .full => false
  | _ => true

structure Outbox (μ : Type*) where
  pending : List μ
  attempts : List μ
  taken : List μ

variable {μ : Type*}

/-- One attempt; there is none without a message. -/
def Outbox.attempt (b : Outbox μ) (r : Reply) : Option (Outbox μ) :=
  match b.pending with
  | [] => none
  | m :: ms =>
    let b := { b with attempts := b.attempts ++ [m] }
    match r with
    | .full => some b
    | .taken => some { b with pending := ms, taken := b.taken ++ [m] }
    | .refused => some { b with pending := ms }

def outbox (msgs : List μ) : Machine (Outbox μ) Reply where
  init := ⟨msgs, [], []⟩
  step := Outbox.attempt

/-- How many messages the replies decide. -/
def decided (rs : List Reply) : Nat := rs.countP Reply.decides

/-- The messages that are taken. -/
def takenOf (msgs : List μ) (rs : List Reply) : List μ :=
  ((msgs.zip (rs.filter Reply.decides)).filter fun p => p.2 = .taken).map Prod.fst

/-! ## What is taken -/

@[simp] theorem decided_full (rs : List Reply) : decided (.full :: rs) = decided rs :=
  List.countP_cons_of_neg (by decide)

@[simp] theorem decided_taken (rs : List Reply) : decided (.taken :: rs) = decided rs + 1 :=
  List.countP_cons_of_pos rfl

@[simp] theorem decided_refused (rs : List Reply) :
    decided (.refused :: rs) = decided rs + 1 := List.countP_cons_of_pos rfl

@[simp] theorem takenOf_full (msgs : List μ) (rs : List Reply) :
    takenOf msgs (.full :: rs) = takenOf msgs rs := rfl

theorem takenOf_taken (m : μ) (msgs : List μ) (rs : List Reply) :
    takenOf (m :: msgs) (.taken :: rs) = m :: takenOf msgs rs := rfl

theorem takenOf_refused (m : μ) (msgs : List μ) (rs : List Reply) :
    takenOf (m :: msgs) (.refused :: rs) = takenOf msgs rs := rfl

@[simp] theorem takenOf_nil (msgs : List μ) : takenOf msgs [] = [] := by
  simp [takenOf]

/-! ## Runs -/

/-- What the attempts of a run have done with the messages of its start. -/
structure Sent (msgs : List μ) (rs : List Reply) (b : Outbox μ) : Prop where
  pending : b.pending = msgs.drop (decided rs)
  decided_le : decided rs ≤ msgs.length
  taken : b.taken = takenOf msgs rs
  attempts_length : b.attempts.length = rs.length
  attempts : ∀ i < rs.length, b.attempts[i]? = msgs[decided (rs.take i)]?

namespace Sent

variable {m : μ} {ms : List μ} {r : Reply} {rs : List Reply} {u : Outbox μ}

/-- The first attempt is at the first message, and the others are as before. -/
theorem attempts_cons {ps : List μ} (h : Sent ps rs u)
    (hps : ∀ i, ps[decided (rs.take i)]? = (m :: ms)[decided (r :: rs.take i)]?) :
    ∀ i < (r :: rs).length, (m :: u.attempts)[i]? = (m :: ms)[decided ((r :: rs).take i)]? := by
  intro i hi
  cases i with
  | zero => rfl
  | succ i => exact (h.attempts i (Nat.lt_of_succ_lt_succ hi)).trans (hps i)

theorem cons_taken (h : Sent ms rs u) :
    Sent (m :: ms) (.taken :: rs) ⟨u.pending, m :: u.attempts, m :: u.taken⟩ where
  pending := by rw [decided_taken, List.drop_succ_cons, h.pending]
  decided_le := by
    rw [decided_taken]
    exact Nat.succ_le_succ h.decided_le
  taken := by rw [takenOf_taken, h.taken]
  attempts_length := congrArg Nat.succ h.attempts_length
  attempts := h.attempts_cons fun i => by rw [decided_taken, List.getElem?_cons_succ]

theorem cons_full (h : Sent (m :: ms) rs u) :
    Sent (m :: ms) (.full :: rs) ⟨u.pending, m :: u.attempts, u.taken⟩ where
  pending := by rw [decided_full, h.pending]
  decided_le := by
    rw [decided_full]
    exact h.decided_le
  taken := by rw [takenOf_full, h.taken]
  attempts_length := congrArg Nat.succ h.attempts_length
  attempts := h.attempts_cons fun i => by rw [decided_full]

theorem cons_refused (h : Sent ms rs u) :
    Sent (m :: ms) (.refused :: rs) ⟨u.pending, m :: u.attempts, u.taken⟩ where
  pending := by rw [decided_refused, List.drop_succ_cons, h.pending]
  decided_le := by
    rw [decided_refused]
    exact Nat.succ_le_succ h.decided_le
  taken := by rw [takenOf_refused, h.taken]
  attempts_length := congrArg Nat.succ h.attempts_length
  attempts := h.attempts_cons fun i => by rw [decided_refused, List.getElem?_cons_succ]

end Sent

/-- From any start, by induction on the replies. -/
theorem exists_sent {msgs : List μ} {rs : List Reply} {b b' : Outbox μ}
    (h : (outbox msgs).run b rs = some b') :
    ∃ u, Sent b.pending rs u ∧ b' = ⟨u.pending, b.attempts ++ u.attempts, b.taken ++ u.taken⟩ := by
  induction rs generalizing b with
  | nil =>
    cases h
    exact ⟨⟨_, [], []⟩, ⟨rfl, Nat.zero_le _, by simp, rfl, by simp⟩, by simp⟩
  | cons r rs ih =>
    obtain ⟨b₁, hb₁, hr⟩ := Machine.run_cons_some.mp h
    obtain ⟨u, hu, rfl⟩ := ih hr
    obtain ⟨pending, attempts, taken⟩ := b
    cases pending with
    | nil => cases hb₁
    | cons m ms =>
      cases r with
      | taken =>
        cases hb₁
        exact ⟨_, hu.cons_taken, by simp⟩
      | full =>
        cases hb₁
        exact ⟨_, hu.cons_full, by simp⟩
      | refused =>
        cases hb₁
        exact ⟨_, hu.cons_refused, by simp⟩

/-- **Runs of an outbox.** -/
theorem sent_of_run {msgs : List μ} {rs : List Reply} {b : Outbox μ}
    (h : (outbox msgs).run (outbox msgs).init rs = some b) : Sent msgs rs b := by
  obtain ⟨u, hu, rfl⟩ := exists_sent h
  exact hu

end Outboxes
