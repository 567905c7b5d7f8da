import LearnFramework.Lib.Machine
import LearnFramework.Lib.Family
import LearnFramework.CheckQueue.Queue
import Mathlib.Data.Multiset.AddSub
import Mathlib.Data.Fintype.Option
import Mathlib.Algebra.Order.Group.Multiset

/-!
# The pool: threads in `CCheckQueue::Loop`

A thread is the master (`none`) or a worker (`some w`, with `w` in a finite type
`ι`). A step of the machine `pool` is one critical section of `Loop` or `Add`,
one turn of the execution loop outside the lock, or a wake-up. A critical section
is one step because the mutex is held throughout; it ends when the thread waits,
returns, or leaves with a batch.

* `lock t`: `t` takes the mutex at the top of the `do` loop or inside
  `cond.wait`, and runs to the end of the critical section;
* `exec t`: the body of `for (T& check : vChecks)` once, or `vChecks.clear()`;
* `add vChecks pick`: the master calls `Add`; `pick` is the thread that a
  `notify_one` reaches, `none` when no worker waits;
* `wake t`: a spurious wake-up;
* `enter t`: a worker calls `Thread()`, the master calls `Wait()`;
* `leave`: `Wait` returns to its caller and a new session begins.
-/

namespace LearnFramework.CheckQueue

open Machines Families

variable {T ι : Type*}

/-- Where a thread is. -/
inductive Ctl (T : Type*) where
  /-- not inside `Loop` -/
  | outside
  /-- at the top of the `do` loop, about to take the mutex -/
  | top (nNow : UInt32) (fOk : Bool)
  /-- holding the mutex, at the test of `while (queue.empty())` -/
  | testing
  /-- in `cond.wait`, with no notification pending -/
  | waiting
  /-- in `cond.wait`, notified or spuriously woken, about to retake the mutex -/
  | woken
  /-- outside the lock with the rest of its batch -/
  | working (vChecks : List T) (nNow : UInt32) (fOk : Bool)
  | returned (fRet : Bool)
  deriving DecidableEq, Repr

namespace Ctl

/-- Notify a thread, if it waits. -/
def wake : Ctl T → Ctl T
  | .waiting => .woken
  | c => c

def isWaiting : Ctl T → Bool
  | .waiting => true
  | _ => false

theorem isWaiting_iff {c : Ctl T} : c.isWaiting = true ↔ c = .waiting := by
  cases c <;> simp [isWaiting]

/-- Between the call of `Loop` and its return. -/
def inLoop : Ctl T → Bool
  | .outside => false
  | .returned _ => false
  | _ => true

/-- The checks a thread has taken and not yet reported. -/
def pending : Ctl T → Nat
  | .top nNow _ => nNow.toNat
  | .working _ nNow _ => nNow.toNat
  | _ => 0

/-- The checks of its batch that a thread has not come to yet. -/
def todo : Ctl T → Multiset T
  | .working vChecks _ _ => vChecks
  | _ => 0

/-- The `fOk` that a thread will report, or the result it has returned. -/
def flag : Ctl T → Bool
  | .top nNow fOk => fOk || nNow == 0
  | .working _ _ fOk => fOk
  | .returned fRet => fRet
  | _ => true

end Ctl

/-- What happened since the last `Wait` returned; no code reads it. -/
structure Session (T : Type*) where
  added : Multiset T
  taken : Multiset T
  executed : Multiset T
  deriving DecidableEq

def Session.empty : Session T := ⟨0, 0, 0⟩

structure Pool (T ι : Type*) where
  q : CCheckQueue T
  ctl : Option ι → Ctl T
  session : Session T

inductive Act (T ι : Type*) where
  | enter (t : Option ι)
  | lock (t : Option ι)
  | wake (t : Option ι)
  | exec (t : Option ι)
  | add (vChecks : List T) (pick : Option ι)
  | leave
  deriving DecidableEq

namespace Pool

/-- `condWorker.notify_all()`. -/
def notifyAll (s : Pool T ι) : Pool T ι :=
  { s with
    ctl := fun
      | none => s.ctl none
      | some w => (s.ctl (some w)).wake }

variable [DecidableEq ι]

/-- Move one thread to a control point. -/
def goto (s : Pool T ι) (t : Option ι) (c : Ctl T) : Pool T ι :=
  { s with ctl := Function.update s.ctl t c }

/-- `condMaster.notify_one()`: only the master waits there. -/
def notifyMaster (s : Pool T ι) : Pool T ι := s.goto none (s.ctl none).wake

/-- `condWorker.notify_one()`: it reaches one waiting worker, if there is one. -/
def notifyOne [Fintype ι] (s : Pool T ι) : Option ι → Option (Pool T ι)
  | some w => if (s.ctl (some w)).isWaiting then some (s.goto (some w) .woken) else none
  | none => if ∀ w, (s.ctl (some w)).isWaiting = false then some s else none

/-- Take the mutex, from the top of the loop or from inside `cond.wait`. -/
def acquire (s : Pool T ι) (t : Option ι) : Option (Pool T ι) :=
  match s.ctl t with
  | .top nNow fOk =>
    let s' : Pool T ι := { s with q := s.q.cleanUp nNow fOk }
    let s' := if nNow ≠ 0 ∧ s'.q.nTodo = 0 ∧ t.isSome then s'.notifyMaster else s'
    some (s'.goto t .testing)
  | .woken => some ({ s with q := { s.q with nIdle := s.q.nIdle - 1 } }.goto t .testing)
  | _ => none

/-- From the test of `while (queue.empty())` to the release of the mutex. -/
def pass (s : Pool T ι) (t : Option ι) : Option (Pool T ι) :=
  if s.q.queue.isEmpty then
    if (t.isNone || s.q.fQuit) && s.q.nTodo == 0 then
      some ({ s with
        q := { s.q with
          nTotal := s.q.nTotal - 1
          fAllOk := if t.isNone then true else s.q.fAllOk } }.goto t (.returned s.q.fAllOk))
    else some ({ s with q := { s.q with nIdle := s.q.nIdle + 1 } }.goto t .waiting)
  else
    (takeBatch s.q.nNow.toNat s.q.queue).map fun r =>
      { s with
        q := { s.q with queue := r.1 }
        session := { s.session with taken := s.session.taken + r.2 } }.goto t
          (.working r.2 s.q.nNow s.q.fAllOk)

/-- One turn of `for (T& check : vChecks)`; after the last one `vChecks.clear()`. -/
def execute (eval : T → Bool) (s : Pool T ι) (t : Option ι) : Option (Pool T ι) :=
  match s.ctl t with
  | .working (check :: rest) nNow fOk =>
    if fOk then
      some ({ s with
        session := { s.session with executed := check ::ₘ s.session.executed } }.goto t
          (.working rest nNow (eval check)))
    else some (s.goto t (.working rest nNow fOk))
  | .working [] nNow fOk => some (s.goto t (.top nNow fOk))
  | _ => none

/-- `Add`, called by the master. -/
def addBatch [Fintype ι] (s : Pool T ι) (vChecks : List T) (pick : Option ι) :
    Option (Pool T ι) :=
  match s.ctl none with
  | .outside =>
    let s' : Pool T ι := { s with
      q := s.q.add vChecks
      session := { s.session with added := s.session.added + vChecks } }
    if vChecks.length = 1 then s'.notifyOne pick
    else if vChecks.length > 1 then some s'.notifyAll
    else some s'
  | _ => none

def step [Fintype ι] (eval : T → Bool) (s : Pool T ι) : Act T ι → Option (Pool T ι)
  | .enter t =>
    match s.ctl t with
    | .outside => some (s.goto t (.top 0 true))
    | _ => none
  | .lock t => (s.acquire t).bind fun s' => s'.pass t
  | .wake t => if (s.ctl t).isWaiting then some (s.goto t .woken) else none
  | .exec t => s.execute eval t
  | .add vChecks pick => s.addBatch vChecks pick
  | .leave =>
    match s.ctl none with
    | .returned _ => some ({ s with session := .empty }.goto none .outside)
    | _ => none

/-! ## What each step does -/

@[simp] theorem goto_q (s : Pool T ι) (t : Option ι) (c : Ctl T) : (s.goto t c).q = s.q := rfl

@[simp] theorem goto_ctl_self (s : Pool T ι) (t : Option ι) (c : Ctl T) :
    (s.goto t c).ctl t = c := Function.update_self ..

theorem goto_ctl_of_ne (s : Pool T ι) {t i : Option ι} (c : Ctl T) (h : i ≠ t) :
    (s.goto t c).ctl i = s.ctl i := Function.update_of_ne h ..

/-- The ways to take the mutex. -/
inductive Acquire (s : Pool T ι) (t : Option ι) : Pool T ι → Prop
  | first (fOk : Bool) (hc : s.ctl t = .top 0 fOk) :
      Acquire s t ({ s with q := { s.q with nTotal := s.q.nTotal + 1 } }.goto t .testing)
  | report (n : UInt32) (fOk : Bool) (hc : s.ctl t = .top n fOk) (hn : n ≠ 0)
      (hw : s.q.nTodo - n ≠ 0 ∨ t = none) :
      Acquire s t ({ s with q := s.q.cleanUp n fOk }.goto t .testing)
  | reportLast (n : UInt32) (fOk : Bool) (w : ι) (hc : s.ctl t = .top n fOk) (hn : n ≠ 0)
      (hw : t = some w) (hz : s.q.nTodo - n = 0) :
      Acquire s t (({ s with q := s.q.cleanUp n fOk } : Pool T ι).notifyMaster.goto t .testing)
  | rewoken (hc : s.ctl t = .woken) :
      Acquire s t ({ s with q := { s.q with nIdle := s.q.nIdle - 1 } }.goto t .testing)

theorem acquire_cases {s s' : Pool T ι} {t : Option ι} (h : s.acquire t = some s') :
    Acquire s t s' := by
  unfold acquire at h
  split at h
  · rename_i n fOk hc
    simp only [Option.some.injEq, CCheckQueue.cleanUp_nTodo] at h
    subst h
    by_cases hn : n = 0
    · subst hn
      simpa [CCheckQueue.cleanUp] using Acquire.first (s := s) fOk hc
    · cases t with
      | none => simpa [hn] using Acquire.report n fOk hc hn (Or.inr rfl)
      | some w =>
        by_cases hz : s.q.nTodo - n = 0
        · simpa [hn, hz] using Acquire.reportLast n fOk w hc hn rfl hz
        · simpa [hn, hz] using Acquire.report n fOk hc hn (Or.inl hz)
  · rename_i hc
    cases h
    exact Acquire.rewoken hc
  · cases h

/-- The ways a critical section of `Loop` ends. -/
inductive Pass (s : Pool T ι) (t : Option ι) : Pool T ι → Prop
  | finish (he : s.q.queue = []) (hf : t = none ∨ s.q.fQuit = true) (hz : s.q.nTodo = 0) :
      Pass s t ({ s with
        q := { s.q with
          nTotal := s.q.nTotal - 1
          fAllOk := if t.isNone then true else s.q.fAllOk } }.goto t (.returned s.q.fAllOk))
  | wait (he : s.q.queue = []) (hw : t = none → s.q.nTodo ≠ 0) :
      Pass s t ({ s with q := { s.q with nIdle := s.q.nIdle + 1 } }.goto t .waiting)
  | take (rest batch : List T) (hne : s.q.queue ≠ []) (hq : s.q.queue = rest ++ batch.reverse)
      (hlen : batch.length = s.q.nNow.toNat) :
      Pass s t ({ s with
        q := { s.q with queue := rest }
        session := { s.session with taken := s.session.taken + batch } }.goto t
          (.working batch s.q.nNow s.q.fAllOk))

theorem pass_cases {s s' : Pool T ι} {t : Option ι} (h : s.pass t = some s') :
    Pass s t s' := by
  unfold pass at h
  split at h
  · rename_i he
    have he' : s.q.queue = [] := by simpa using he
    split at h
    · rename_i hf
      cases h
      simp only [Bool.and_eq_true, Bool.or_eq_true, Option.isNone_iff_eq_none, beq_iff_eq] at hf
      exact Pass.finish he' hf.1 hf.2
    · rename_i hf
      cases h
      refine Pass.wait he' ?_
      rintro rfl hz
      simp [hz] at hf
  · rename_i he
    have hne : s.q.queue ≠ [] := by simpa using he
    have hle := s.q.nNow_le hne
    rw [takeBatch_eq _ _ hle, Option.map_some] at h
    cases h
    refine Pass.take _ _ hne ?_ ?_
    · rw [List.reverse_reverse, List.take_append_drop]
    · simp only [List.length_reverse, List.length_drop]
      omega

/-- The notifications of `Add`. -/
inductive Notify (s : Pool T ι) (vChecks : List T) : Pool T ι → Prop
  | nothing (h : vChecks = []) : Notify s vChecks s
  | one (w : ι) (h : vChecks.length = 1) (hw : s.ctl (some w) = .waiting) :
      Notify s vChecks (s.goto (some w) .woken)
  | nobody (h : vChecks.length = 1) (hw : ∀ w, s.ctl (some w) ≠ .waiting) : Notify s vChecks s
  | all (h : 1 < vChecks.length) : Notify s vChecks s.notifyAll

/-- The steps of the pool, one constructor for each thing the code can do. -/
inductive Step (eval : T → Bool) (s : Pool T ι) : Act T ι → Pool T ι → Prop
  | enter (t : Option ι) (hc : s.ctl t = .outside) :
      Step eval s (.enter t) (s.goto t (.top 0 true))
  | lock (t : Option ι) (s₁ s₂ : Pool T ι) (ha : Acquire s t s₁) (hp : Pass s₁ t s₂) :
      Step eval s (.lock t) s₂
  | wake (t : Option ι) (hc : s.ctl t = .waiting) : Step eval s (.wake t) (s.goto t .woken)
  | check (t : Option ι) (c : T) (rest : List T) (n : UInt32)
      (hc : s.ctl t = .working (c :: rest) n true) :
      Step eval s (.exec t) ({ s with
        session := { s.session with executed := c ::ₘ s.session.executed } }.goto t
          (.working rest n (eval c)))
  | skip (t : Option ι) (c : T) (rest : List T) (n : UInt32)
      (hc : s.ctl t = .working (c :: rest) n false) :
      Step eval s (.exec t) (s.goto t (.working rest n false))
  | clear (t : Option ι) (n : UInt32) (fOk : Bool) (hc : s.ctl t = .working [] n fOk) :
      Step eval s (.exec t) (s.goto t (.top n fOk))
  | add (vChecks : List T) (pick : Option ι) (s' : Pool T ι) (hc : s.ctl none = .outside)
      (hn : Notify s vChecks s') :
      Step eval s (.add vChecks pick) { s' with
        q := s.q.add vChecks
        session := { s.session with added := s.session.added + vChecks } }
  | leave (r : Bool) (hc : s.ctl none = .returned r) :
      Step eval s .leave ({ s with session := .empty }.goto none .outside)

theorem step_cases [Fintype ι] {eval : T → Bool} {s s' : Pool T ι} {a : Act T ι}
    (h : s.step eval a = some s') : Step eval s a s' := by
  cases a with
  | enter t =>
    simp only [step] at h
    split at h <;> cases h
    exact Step.enter t ‹_›
  | lock t =>
    obtain ⟨s₁, ha, hp⟩ := Option.bind_eq_some_iff.mp h
    exact Step.lock t s₁ s' (acquire_cases ha) (pass_cases hp)
  | wake t =>
    simp only [step] at h
    split at h
    · rename_i hw
      cases h
      exact Step.wake t (Ctl.isWaiting_iff.mp hw)
    · cases h
  | exec t =>
    simp only [step, execute] at h
    split at h
    · rename_i c rest n fOk hc
      cases fOk
      · cases h
        exact Step.skip t c rest n hc
      · cases h
        exact Step.check t c rest n hc
    · cases h
      exact Step.clear t _ _ ‹_›
    · cases h
  | add vChecks pick =>
    simp only [step, addBatch] at h
    split at h
    · rename_i hc
      split at h
      · rename_i h1
        cases pick with
        | none =>
          simp only [notifyOne] at h
          split at h
          · rename_i hw
            cases h
            refine Step.add vChecks none s hc (Notify.nobody h1 fun w hc' => ?_)
            have hf := hw w
            rw [Ctl.isWaiting_iff.mpr hc'] at hf
            cases hf
          · cases h
        | some w =>
          simp only [notifyOne] at h
          split at h
          · rename_i hw
            cases h
            exact Step.add vChecks _ _ hc (Notify.one w h1 (Ctl.isWaiting_iff.mp hw))
          · cases h
      · split at h
        · cases h
          exact Step.add vChecks pick _ hc (Notify.all ‹_›)
        · cases h
          exact Step.add vChecks pick s hc
            (Notify.nothing (List.length_eq_zero_iff.mp (by omega)))
    · cases h
  | leave =>
    simp only [step] at h
    split at h <;> cases h
    exact Step.leave _ ‹_›

/-- A thread at the lock can always run its critical section: in particular the
batch loop never reads the back of an empty queue. -/
theorem lock_enabled [Fintype ι] (eval : T → Bool) (s : Pool T ι) (t : Option ι)
    (h : (∃ n fOk, s.ctl t = .top n fOk) ∨ s.ctl t = .woken) :
    ∃ s', s.step eval (.lock t) = some s' := by
  have hpass : ∀ s₁ : Pool T ι, ∃ s', s₁.pass t = some s' := by
    intro s₁
    unfold pass
    split
    · split <;> exact ⟨_, rfl⟩
    · rename_i he
      have hne : s₁.q.queue ≠ [] := by simpa using he
      rw [takeBatch_eq _ _ (s₁.q.nNow_le hne)]
      exact ⟨_, rfl⟩
  obtain ⟨s₁, h₁⟩ : ∃ s₁, s.acquire t = some s₁ := by
    unfold acquire
    rcases h with ⟨n, fOk, hc⟩ | hc
    · rw [hc]
      exact ⟨_, rfl⟩
    · rw [hc]
      exact ⟨_, rfl⟩
  obtain ⟨s', h'⟩ := hpass s₁
  exact ⟨s', by simp [step, h₁, h']⟩

theorem exec_enabled [Fintype ι] (eval : T → Bool) (s : Pool T ι) (t : Option ι)
    (vChecks : List T) (n : UInt32) (fOk : Bool) (h : s.ctl t = .working vChecks n fOk) :
    ∃ s', s.step eval (.exec t) = some s' := by
  simp only [step, execute, h]
  cases vChecks with
  | nil => exact ⟨_, rfl⟩
  | cons c rest => cases fOk <;> exact ⟨_, rfl⟩

end Pool

/-- The pool of `ι` workers on a new queue. -/
def pool [Fintype ι] [DecidableEq ι] (eval : T → Bool) (nBatchSize : UInt32) :
    Machine (Pool T ι) (Act T ι) where
  init := ⟨.new nBatchSize, fun _ => .outside, .empty⟩
  step := Pool.step eval

end LearnFramework.CheckQueue
