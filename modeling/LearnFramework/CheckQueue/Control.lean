import LearnFramework.CheckQueue.Alone

/-!
# The control object

`CCheckQueueControl<T>` on top of the pool. The master constructs one object
after the other on the same queue (`ControlMutex` admits one at a time), calls
`Add` and `Wait` on it in any order, and destroys it. A call of `Wait` and the
`Wait` of the destructor are spread over the steps of the master in `Loop`,
between `wait` or `destroy` and `waitReturns`. `calls` records the completed
calls on the current object and is not read by the code.

Through `Control.pool` this is a machine that only takes steps of the pool
(`control_simulates`), so what holds of the pool holds under the control objects.
-/

namespace LearnFramework.CheckQueue

open Machines Families Pool

variable {T ι : Type*}

structure CCheckQueueControl where
  /-- `pqueue != nullptr` -/
  pqueue : Bool
  fDone : Bool
  deriving DecidableEq, Repr

inductive Call (T : Type*) where
  | add (vChecks : List T)
  | wait
  deriving DecidableEq, Repr

/-- Where the master is with respect to the control object. -/
inductive Phase where
  /-- there is no object and `ControlMutex` is free -/
  | free
  /-- between two calls on the object -/
  | idle
  /-- in `pqueue->Wait()`, called by `Wait` -/
  | inWait
  /-- in `pqueue->Wait()`, called by the destructor -/
  | inDestructor
  /-- in the destructor, about to unlock `ControlMutex` -/
  | releasing
  deriving DecidableEq, Repr

structure Control (T ι : Type*) where
  pool : Pool T ι
  object : CCheckQueueControl
  phase : Phase
  calls : List (Call T)

inductive ControlAct (T ι : Type*) where
  | construct (pqueue : Bool)
  | add (vChecks : List T) (pick : Option ι)
  | wait
  | waitReturns
  | destroy
  | release
  | thread (a : Act T ι)
  deriving DecidableEq

namespace Control

variable [Fintype ι] [DecidableEq ι]

/-- `pqueue->Wait()` is called. -/
def callWait (eval : T → Bool) (s : Control T ι) (phase : Phase) : Option (Control T ι) :=
  (s.pool.step eval (.enter none)).map fun pool => { s with pool := pool, phase := phase }

def step (eval : T → Bool) (s : Control T ι) : ControlAct T ι → Option (Control T ι)
  | .construct pqueue =>
    match s.phase with
    | .free => some { s with object := ⟨pqueue, false⟩, phase := .idle, calls := [] }
    | _ => none
  | .add vChecks pick =>
    match s.phase with
    | .idle =>
      if s.object.pqueue then
        (s.pool.step eval (.add vChecks pick)).map fun pool =>
          { s with pool := pool, calls := s.calls ++ [.add vChecks] }
      else some { s with calls := s.calls ++ [.add vChecks] }
    | _ => none
  | .wait =>
    match s.phase with
    | .idle =>
      -- With no queue `Wait` returns true at once, and does not set `fDone`.
      if s.object.pqueue then s.callWait eval .inWait
      else some { s with calls := s.calls ++ [.wait] }
    | _ => none
  | .waitReturns =>
    match s.phase with
    | .inWait =>
      (s.pool.step eval .leave).map fun pool =>
        { s with
          pool := pool
          object := { s.object with fDone := true }
          phase := .idle
          calls := s.calls ++ [.wait] }
    | .inDestructor =>
      (s.pool.step eval .leave).map fun pool =>
        { s with pool := pool, object := { s.object with fDone := true }, phase := .releasing }
    | _ => none
  | .destroy =>
    match s.phase with
    | .idle =>
      if s.object.pqueue then
        if s.object.fDone then some { s with phase := .releasing }
        else s.callWait eval .inDestructor
      else some { s with phase := .free }
    | _ => none
  | .release =>
    match s.phase with
    | .releasing => some { s with phase := .free }
    | _ => none
  | .thread a =>
    if a.inLoop then (s.pool.step eval a).map fun pool => { s with pool := pool } else none

end Control

/-- The pool under the control objects of the master. -/
def control [Fintype ι] [DecidableEq ι] (eval : T → Bool) (nBatchSize : UInt32) :
    Machine (Control T ι) (ControlAct T ι) where
  init := ⟨(pool eval nBatchSize).init, ⟨false, false⟩, .free, []⟩
  step := Control.step eval

/-! ## What each call does -/

variable [Fintype ι] [DecidableEq ι]

/-- The steps under a control object, with the branches of the source resolved. -/
inductive ControlStep (eval : T → Bool) (s : Control T ι) :
    ControlAct T ι → Control T ι → Prop
  | construct (pqueue : Bool) (hp : s.phase = .free) :
      ControlStep eval s (.construct pqueue)
        { s with object := ⟨pqueue, false⟩, phase := .idle, calls := [] }
  | add (vChecks : List T) (pick : Option ι) (pool : Pool T ι) (hp : s.phase = .idle)
      (hq : s.object.pqueue = true) (hs : s.pool.step eval (.add vChecks pick) = some pool) :
      ControlStep eval s (.add vChecks pick)
        { s with pool := pool, calls := s.calls ++ [.add vChecks] }
  | addNull (vChecks : List T) (pick : Option ι) (hp : s.phase = .idle)
      (hq : s.object.pqueue = false) :
      ControlStep eval s (.add vChecks pick) { s with calls := s.calls ++ [.add vChecks] }
  | wait (pool : Pool T ι) (hp : s.phase = .idle) (hq : s.object.pqueue = true)
      (hs : s.pool.step eval (.enter none) = some pool) :
      ControlStep eval s .wait { s with pool := pool, phase := .inWait }
  | waitNull (hp : s.phase = .idle) (hq : s.object.pqueue = false) :
      ControlStep eval s .wait { s with calls := s.calls ++ [.wait] }
  | waitReturns (pool : Pool T ι) (hp : s.phase = .inWait)
      (hs : s.pool.step eval .leave = some pool) :
      ControlStep eval s .waitReturns
        { s with
          pool := pool
          object := { s.object with fDone := true }
          phase := .idle
          calls := s.calls ++ [.wait] }
  | destructorReturns (pool : Pool T ι) (hp : s.phase = .inDestructor)
      (hs : s.pool.step eval .leave = some pool) :
      ControlStep eval s .waitReturns
        { s with pool := pool, object := { s.object with fDone := true }, phase := .releasing }
  | destroyDone (hp : s.phase = .idle) (hq : s.object.pqueue = true)
      (hd : s.object.fDone = true) :
      ControlStep eval s .destroy { s with phase := .releasing }
  | destroyWait (pool : Pool T ι) (hp : s.phase = .idle) (hq : s.object.pqueue = true)
      (hd : s.object.fDone = false) (hs : s.pool.step eval (.enter none) = some pool) :
      ControlStep eval s .destroy { s with pool := pool, phase := .inDestructor }
  | destroyNull (hp : s.phase = .idle) (hq : s.object.pqueue = false) :
      ControlStep eval s .destroy { s with phase := .free }
  | release (hp : s.phase = .releasing) : ControlStep eval s .release { s with phase := .free }
  | thread (a : Act T ι) (pool : Pool T ι) (ha : a.inLoop = true)
      (hs : s.pool.step eval a = some pool) :
      ControlStep eval s (.thread a) { s with pool := pool }

theorem controlStep_cases {eval : T → Bool} {s s' : Control T ι} {a : ControlAct T ι}
    (h : s.step eval a = some s') : ControlStep eval s a s' := by
  cases a with
  | construct pqueue =>
    simp only [Control.step] at h
    split at h <;> cases h
    exact .construct pqueue ‹_›
  | add vChecks pick =>
    simp only [Control.step] at h
    split at h
    · rename_i hp
      split at h
      · rename_i hq
        obtain ⟨pool, hs, rfl⟩ := Option.map_eq_some_iff.mp h
        exact .add vChecks pick pool hp hq hs
      · cases h
        exact .addNull vChecks pick hp (Bool.eq_false_iff.mpr ‹_›)
    · cases h
  | wait =>
    simp only [Control.step, Control.callWait] at h
    split at h
    · rename_i hp
      split at h
      · rename_i hq
        obtain ⟨pool, hs, rfl⟩ := Option.map_eq_some_iff.mp h
        exact .wait pool hp hq hs
      · cases h
        exact .waitNull hp (Bool.eq_false_iff.mpr ‹_›)
    · cases h
  | waitReturns =>
    simp only [Control.step] at h
    split at h
    · obtain ⟨pool, hs, rfl⟩ := Option.map_eq_some_iff.mp h
      exact .waitReturns pool ‹_› hs
    · obtain ⟨pool, hs, rfl⟩ := Option.map_eq_some_iff.mp h
      exact .destructorReturns pool ‹_› hs
    · cases h
  | destroy =>
    simp only [Control.step, Control.callWait] at h
    split at h
    · rename_i hp
      split at h
      · rename_i hq
        split at h
        · cases h
          exact .destroyDone hp hq ‹_›
        · obtain ⟨pool, hs, rfl⟩ := Option.map_eq_some_iff.mp h
          exact .destroyWait pool hp hq (Bool.eq_false_iff.mpr ‹_›) hs
      · cases h
        exact .destroyNull hp (Bool.eq_false_iff.mpr ‹_›)
    · cases h
  | release =>
    simp only [Control.step] at h
    split at h <;> cases h
    exact .release ‹_›
  | thread a =>
    simp only [Control.step] at h
    split at h
    · rename_i ha
      obtain ⟨pool, hs, rfl⟩ := Option.map_eq_some_iff.mp h
      exact .thread a pool ha hs
    · cases h

/-- The control objects drive the pool only through its own steps. -/
theorem control_simulates (eval : T → Bool) (nBatchSize : UInt32) :
    Machine.Simulates (control (ι := ι) eval nBatchSize) (pool eval nBatchSize) Control.pool where
  init := rfl
  step s a t h := by
    cases controlStep_cases h with
    | add vChecks pick p hp hq hs => exact Or.inr ⟨.add vChecks pick, hs⟩
    | wait p hp hq hs => exact Or.inr ⟨.enter none, hs⟩
    | waitReturns p hp hs => exact Or.inr ⟨.leave, hs⟩
    | destructorReturns p hp hs => exact Or.inr ⟨.leave, hs⟩
    | destroyWait p hp hq hd hs => exact Or.inr ⟨.enter none, hs⟩
    | thread b p hb hs => exact Or.inr ⟨b, hs⟩
    | _ => exact Or.inl rfl

end LearnFramework.CheckQueue
