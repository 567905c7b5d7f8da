import Mathlib.Data.List.Basic
import Mathlib.Data.UInt
import Mathlib.Order.MinMax

/-!
# The check queue: data and critical sections

`CCheckQueue<T>` of `checkqueue.h`. The fields are those of the class, less the
mutex and the two condition variables, which live in the control points of the
threads (`Pool.lean`). A check is a value of `T`; its result is read only when a
thread executes it. `unsigned int` is `UInt32`, so `nTodo -= nNow` and the batch size
wrap as in the source. `int` is `Int32`: the sum of the counters wraps here where the
source leaves it undefined, and `Counters.lean` says for how many workers it does not.
-/

namespace LearnFramework.CheckQueue

variable {T : Type*}

structure CCheckQueue (T : Type*) where
  /-- A stack: the back of the vector is the end of the list. -/
  queue : List T
  nIdle : Int32
  nTotal : Int32
  fAllOk : Bool
  nTodo : UInt32
  fQuit : Bool
  nBatchSize : UInt32
  deriving DecidableEq, Repr

namespace CCheckQueue

/-- The constructor. -/
def new (nBatchSizeIn : UInt32) : CCheckQueue T where
  queue := []
  nIdle := 0
  nTotal := 0
  fAllOk := true
  nTodo := 0
  fQuit := false
  nBatchSize := nBatchSizeIn

/-- `Add`, up to its notifications. Each check is swapped with a default value
pushed at the back of the queue. -/
def add (q : CCheckQueue T) (vChecks : List T) : CCheckQueue T :=
  { q with
    queue := vChecks.foldl (fun queue check => queue ++ [check]) q.queue
    nTodo := q.nTodo + UInt32.ofNat vChecks.length }

/-- The clean-up of the previous turn, or the count of a first turn. -/
def cleanUp (q : CCheckQueue T) (nNow : UInt32) (fOk : Bool) : CCheckQueue T :=
  if nNow ≠ 0 then { q with fAllOk := q.fAllOk && fOk, nTodo := q.nTodo - nNow }
  else { q with nTotal := q.nTotal + 1 }

/-- The number of checks a thread decides to process now. The divisor is an `int`, which
the division by it converts. -/
def nNow (q : CCheckQueue T) : UInt32 :=
  max 1 (min q.nBatchSize
    (UInt32.ofNat q.queue.length / (q.nTotal + q.nIdle + 1).toUInt32))

end CCheckQueue

/-- The loop that moves `n` checks from the back of the queue to `vChecks`;
`none` is a `back()` of an empty vector. Returns the queue and `vChecks`. -/
def takeBatch : Nat → List T → Option (List T × List T)
  | 0, queue => some (queue, [])
  | n + 1, queue =>
    match queue.getLast? with
    | none => none
    | some check =>
      (takeBatch n queue.dropLast).map fun r => (r.1, check :: r.2)

namespace CCheckQueue

@[simp] theorem add_queue (q : CCheckQueue T) (vChecks : List T) :
    (q.add vChecks).queue = q.queue ++ vChecks := by
  have h : ∀ queue : List T,
      vChecks.foldl (fun queue check => queue ++ [check]) queue = queue ++ vChecks := by
    induction vChecks with
    | nil => simp
    | cons c cs ih => intro queue; simp [ih]
  exact h q.queue

@[simp] theorem add_nTodo (q : CCheckQueue T) (vChecks : List T) :
    (q.add vChecks).nTodo = q.nTodo + UInt32.ofNat vChecks.length := rfl

@[simp] theorem cleanUp_queue (q : CCheckQueue T) (n : UInt32) (fOk : Bool) :
    (q.cleanUp n fOk).queue = q.queue := by
  unfold cleanUp
  split <;> rfl

@[simp] theorem cleanUp_fQuit (q : CCheckQueue T) (n : UInt32) (fOk : Bool) :
    (q.cleanUp n fOk).fQuit = q.fQuit := by
  unfold cleanUp
  split <;> rfl

/-- Also for a first turn, where `nNow` is 0. -/
@[simp] theorem cleanUp_nTodo (q : CCheckQueue T) (n : UInt32) (fOk : Bool) :
    (q.cleanUp n fOk).nTodo = q.nTodo - n := by
  unfold cleanUp
  split
  · rfl
  · rename_i h
    simp only [ne_eq, not_not] at h
    simp [h]

theorem cleanUp_fAllOk (q : CCheckQueue T) (n : UInt32) (fOk : Bool) :
    (q.cleanUp n fOk).fAllOk = (q.fAllOk && (fOk || n == 0)) := by
  unfold cleanUp
  split
  · rename_i h
    have hn : (n == 0) = false := by simpa using h
    rw [hn, Bool.or_false]
  · rename_i h
    simp only [ne_eq, not_not] at h
    simp [h]

private theorem toNat_max (a b : UInt32) : (max a b).toNat = max a.toNat b.toNat := by
  change (if a ≤ b then b else a).toNat = _
  simp only [UInt32.le_iff_toNat_le]
  split <;> omega

private theorem toNat_min_le (a b : UInt32) : (min a b).toNat ≤ b.toNat := by
  change (if a ≤ b then a else b).toNat ≤ _
  simp only [UInt32.le_iff_toNat_le]
  split <;> omega

private theorem toNat_min_le_left (a b : UInt32) : (min a b).toNat ≤ a.toNat := by
  change (if a ≤ b then a else b).toNat ≤ _
  simp only [UInt32.le_iff_toNat_le]
  split <;> omega

theorem nNow_pos (q : CCheckQueue T) : 1 ≤ q.nNow.toNat := by
  rw [nNow, toNat_max]
  exact le_max_left _ _

theorem nNow_ne_zero (q : CCheckQueue T) : q.nNow ≠ 0 := by
  intro h
  have := q.nNow_pos
  rw [h] at this
  exact absurd this (by decide)

theorem nNow_le_nBatchSize (q : CCheckQueue T) : q.nNow.toNat ≤ max 1 q.nBatchSize.toNat := by
  rw [nNow, toNat_max]
  exact max_le_max_left 1 (toNat_min_le_left _ _)

/-- A batch never exceeds the queue, whatever the divisor is. -/
theorem nNow_le (q : CCheckQueue T) (h : q.queue ≠ []) : q.nNow.toNat ≤ q.queue.length := by
  have hpos : 0 < q.queue.length := List.length_pos_iff.mpr h
  have hmin := toNat_min_le q.nBatchSize
    (UInt32.ofNat q.queue.length / (q.nTotal + q.nIdle + 1).toUInt32)
  have hdiv : (UInt32.ofNat q.queue.length / (q.nTotal + q.nIdle + 1).toUInt32).toNat ≤
      q.queue.length := by
    rw [UInt32.toNat_div, UInt32.toNat_ofNat']
    exact le_trans (Nat.div_le_self _ _) (Nat.mod_le _ _)
  rw [nNow, toNat_max]
  exact max_le hpos (le_trans hmin hdiv)

end CCheckQueue

/-- **The batch loop.** It succeeds when the queue is long enough, and moves the
last `n` checks, in reverse order. -/
theorem takeBatch_eq (n : Nat) (queue : List T) (h : n ≤ queue.length) :
    takeBatch n queue =
      some (queue.take (queue.length - n), (queue.drop (queue.length - n)).reverse) := by
  induction n generalizing queue with
  | zero => simp [takeBatch]
  | succ n ih =>
    have hne : queue ≠ [] := by
      intro he
      simp [he] at h
    obtain ⟨init, c, rfl⟩ : ∃ init c, queue = init ++ [c] :=
      ⟨queue.dropLast, queue.getLast hne, (List.dropLast_append_getLast hne).symm⟩
    have hn : n ≤ init.length := by simpa using h
    have hk : (init ++ [c]).length - (n + 1) = init.length - n := by simp
    rw [hk, List.take_append_of_le_length (by omega), List.drop_append_of_le_length (by omega)]
    simp [takeBatch, ih init hn]

end LearnFramework.CheckQueue
