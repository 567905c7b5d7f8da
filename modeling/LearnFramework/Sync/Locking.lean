import LearnFramework.Lib.Machine
import LearnFramework.Sync.DeleteLock
import Mathlib.Data.Fintype.Basic
import Mathlib.Logic.Function.Basic

/-!
# Threads that lock `CCriticalSection`s

Any number of threads, each with its thread-specific lock stack, and the recursive
mutexes of the critical sections. One action is

* `enter t … fTry`: `CMutexLock::Enter` or `TryEnter` of thread `t` calls
  `EnterCritical`, which holds `dd_mutex` throughout;
* `lock t`: the `lock.lock()` or `lock.try_lock()` that follows; a failed
  `try_lock` calls `LeaveCritical`;
* `leave t cs`: the destructor of a `CMutexLock` that owns its lock, or
  `LEAVE_CRITICAL_SECTION`; the lock stack is only read by its own thread, so the
  pop and the unlock are one action in either order;
* `destroy cs`: `~CCriticalSection` of a mutex that nobody owns or asks for;
* `exit`: `~LockData`.
-/

namespace LearnFramework.Sync

open Machines LockData

/-- `boost::recursive_mutex`: the owner has locked it `again + 1` times. -/
inductive RecursiveMutex (ι : Type*) where
  | free
  | owned (t : ι) (again : Nat)
  deriving DecidableEq, Repr

namespace RecursiveMutex

variable {ι : Type*}

def owner : RecursiveMutex ι → Option ι
  | .free => none
  | .owned t _ => some t

variable [DecidableEq ι]

/-- How often a thread has locked it. -/
def depth (t : ι) : RecursiveMutex ι → Nat
  | .free => 0
  | .owned u again => if u = t then again + 1 else 0

def lock (t : ι) : RecursiveMutex ι → Option (RecursiveMutex ι)
  | .free => some (.owned t 0)
  | .owned u again => if u = t then some (.owned u (again + 1)) else none

def unlock (t : ι) : RecursiveMutex ι → Option (RecursiveMutex ι)
  | .free => none
  | .owned u 0 => if u = t then some .free else none
  | .owned u (again + 1) => if u = t then some (.owned u again) else none

variable {m m' : RecursiveMutex ι} {t : ι}

theorem depth_lock (h : m.lock t = some m') (u : ι) :
    m'.depth u = m.depth u + if u = t then 1 else 0 := by
  cases m with
  | free =>
    cases h
    simp only [depth, eq_comm (a := t)]
    split <;> rfl
  | owned v again =>
    simp only [lock] at h
    split at h
    · rename_i hv
      cases h
      subst hv
      simp only [depth, eq_comm (a := v)]
      split <;> rfl
    · cases h

theorem depth_unlock (h : m.unlock t = some m') (u : ι) :
    m.depth u = m'.depth u + if u = t then 1 else 0 := by
  cases m with
  | free => cases h
  | owned v again =>
    cases again with
    | zero =>
      simp only [unlock] at h
      split at h
      · rename_i hv
        cases h
        subst hv
        simp only [depth, eq_comm (a := v)]
        split <;> rfl
      · cases h
    | succ again =>
      simp only [unlock] at h
      split at h
      · rename_i hv
        cases h
        subst hv
        simp only [depth, eq_comm (a := v)]
        split <;> rfl
      · cases h

theorem depth_pos_iff : 0 < m.depth t ↔ m.owner = some t := by
  cases m with
  | free => simp [depth, owner]
  | owned u again =>
    simp only [depth, owner, Option.some.injEq]
    split <;> simp [*]

/-- A mutex is refused when another thread owns it. -/
theorem lock_eq_none_iff : m.lock t = none ↔ ∃ u, u ≠ t ∧ m.owner = some u := by
  cases m with
  | free => simp [lock, owner]
  | owned u again =>
    simp only [lock, owner, Option.some.injEq]
    split
    · rename_i hu
      simp [hu]
    · rename_i hu
      simp [hu]

end RecursiveMutex

/-- Where a thread is. -/
inductive Point where
  | running
  /-- in `lock.lock()` -/
  | locking (cs : Ptr)
  /-- in `lock.try_lock()` -/
  | trying (cs : Ptr)
  deriving DecidableEq, Repr

/-- The lock that a thread has entered and not yet obtained or given up. -/
def Point.entered : Point → Option Ptr
  | .running => none
  | .locking cs => some cs
  | .trying cs => some cs

/-- What happened to the locks; no code reads it. -/
inductive Event where
  | took (cs : Ptr) (before : List Ptr)
  | deleted (cs : Ptr)
  deriving DecidableEq, Repr

structure Threads (ι : Type*) where
  lockdata : LockData
  lockstack : ι → Option LockStack
  mutex : Ptr → RecursiveMutex ι
  point : ι → Point
  /-- set by `assert(false)`, which ends the program -/
  aborted : Option Mismatch
  history : List Event

inductive Act (ι : Type*) where
  | enter (t : ι) (pszName pszFile : String) (nLine : Int) (cs : Ptr) (fTry : Bool)
  | lock (t : ι)
  | leave (t : ι) (cs : Ptr)
  | destroy (cs : Ptr)
  | exit
  deriving DecidableEq

namespace Threads

variable {ι : Type*}

def new : Threads ι where
  lockdata := .new
  lockstack := fun _ => none
  mutex := fun _ => .free
  point := fun _ => .running
  aborted := none
  history := []

/-- The locks on the stack of a thread, the first one taken first. -/
def stackOf (s : Threads ι) (t : ι) : List Ptr := locks ((s.lockstack t).getD [])

variable [DecidableEq ι]

def withStack (s : Threads ι) (t : ι) (stack : LockStack) (p : Point) : Threads ι :=
  { s with
    lockstack := Function.update s.lockstack t (some stack)
    point := Function.update s.point t p }

def withMutex (s : Threads ι) (cs : Ptr) (m : RecursiveMutex ι) : Threads ι :=
  { s with mutex := Function.update s.mutex cs m }

/-- `EnterCritical`, for `Enter` (`fTry` false) or `TryEnter`. -/
def enter (s : Threads ι) (t : ι) (pszName pszFile : String) (nLine : Int) (cs : Ptr)
    (fTry : Bool) : Option (Threads ι) :=
  if s.point t = .running ∧ s.lockdata.available = true then
    match enterCritical pszName pszFile nLine cs fTry (s.lockstack t) s.lockdata with
    | .ok (stack, lockdata) =>
      some ({ s with
        lockdata := lockdata
        history := s.history ++ [Event.took cs (ahead cs (s.lockstack t))] }.withStack t stack
          (if fTry then .trying cs else .locking cs))
    | .error e => some { s with aborted := some e }
  else none

/-- The rest of `Enter` or `TryEnter`. -/
def lock (s : Threads ι) (t : ι) : Option (Threads ι) :=
  match s.point t with
  | .running => none
  | .locking cs =>
    ((s.mutex cs).lock t).map fun m =>
      { s.withMutex cs m with point := Function.update s.point t .running }
  | .trying cs =>
    match (s.mutex cs).lock t with
    | some m => some { s.withMutex cs m with point := Function.update s.point t .running }
    | none => (popLock (s.lockstack t)).map fun stack => s.withStack t stack .running

/-- `~CMutexLock`, or `LEAVE_CRITICAL_SECTION`. -/
def leave (s : Threads ι) (t : ι) (cs : Ptr) : Option (Threads ι) :=
  if s.point t = .running then
    (popLock (s.lockstack t)).bind fun stack => ((s.mutex cs).unlock t).map fun m =>
      (s.withMutex cs m).withStack t stack .running
  else none

/-- `~CCriticalSection`. -/
def destroy [Fintype ι] (s : Threads ι) (cs : Ptr) : Option (Threads ι) :=
  if s.mutex cs = .free ∧ ∀ t, (s.point t).entered ≠ some cs then
    some { s with
      lockdata := deleteLock cs s.lockdata
      history := if s.lockdata.available then s.history ++ [.deleted cs] else s.history }
  else none

def step [Fintype ι] (s : Threads ι) (a : Act ι) : Option (Threads ι) :=
  if s.aborted.isSome then none
  else
    match a with
    | .enter t pszName pszFile nLine cs fTry => s.enter t pszName pszFile nLine cs fTry
    | .lock t => s.lock t
    | .leave t cs => s.leave t cs
    | .destroy cs => s.destroy cs
    | .exit => some { s with lockdata := { s.lockdata with available := false } }

/-! ## What each step does -/

variable {s s' : Threads ι}

theorem popLock_cases {o : Option LockStack} {stack : LockStack} (h : popLock o = some stack) :
    ∃ i, o = some (stack ++ [i]) := by
  cases o with
  | none => cases h
  | some st =>
    cases st with
    | nil => cases h
    | cons i rest =>
      cases h
      exact ⟨(i :: rest).getLast (List.cons_ne_nil _ _),
        congrArg some (List.dropLast_append_getLast (List.cons_ne_nil _ _)).symm⟩

/-- The steps of the threads, one constructor for each thing the code can do. -/
inductive Step [Fintype ι] (s : Threads ι) : Act ι → Threads ι → Prop
  | enter (t : ι) (pszName pszFile : String) (nLine : Int) (cs : Ptr) (fTry : Bool)
      (d : LockData) (hp : s.point t = .running)
      (hr : Recorded cs (pushed cs ⟨pszName, pszFile, nLine, fTry⟩ (s.lockstack t))
        (ahead cs (s.lockstack t)) s.lockdata d) :
      Step s (.enter t pszName pszFile nLine cs fTry) ({ s with
        lockdata := d
        history := s.history ++ [Event.took cs (ahead cs (s.lockstack t))] }.withStack t
          (pushed cs ⟨pszName, pszFile, nLine, fTry⟩ (s.lockstack t))
          (if fTry then .trying cs else .locking cs))
  | refuse (t : ι) (pszName pszFile : String) (nLine : Int) (cs : Ptr) (fTry : Bool)
      (e : Mismatch)
      (hr : Refused cs (pushed cs ⟨pszName, pszFile, nLine, fTry⟩ (s.lockstack t))
        (ahead cs (s.lockstack t)) s.lockdata e) :
      Step s (.enter t pszName pszFile nLine cs fTry) { s with aborted := some e }
  | lock (t : ι) (cs : Ptr) (m : RecursiveMutex ι) (hp : (s.point t).entered = some cs)
      (hm : (s.mutex cs).lock t = some m) :
      Step s (.lock t) { s.withMutex cs m with point := Function.update s.point t .running }
  | giveUp (t : ι) (cs : Ptr) (stack : LockStack) (i : Ptr × CLockLocation)
      (hp : s.point t = .trying cs) (hs : s.lockstack t = some (stack ++ [i])) :
      Step s (.lock t) (s.withStack t stack .running)
  | leave (t : ι) (cs : Ptr) (stack : LockStack) (i : Ptr × CLockLocation)
      (m : RecursiveMutex ι) (hp : s.point t = .running)
      (hs : s.lockstack t = some (stack ++ [i])) (hm : (s.mutex cs).unlock t = some m) :
      Step s (.leave t cs) ((s.withMutex cs m).withStack t stack .running)
  | destroy (cs : Ptr) (hm : s.mutex cs = .free) (hp : ∀ t, (s.point t).entered ≠ some cs) :
      Step s (.destroy cs) { s with
        lockdata := deleteLock cs s.lockdata
        history := if s.lockdata.available then s.history ++ [.deleted cs] else s.history }
  | exit : Step s .exit { s with lockdata := { s.lockdata with available := false } }

theorem step_cases [Fintype ι] {a : Act ι} (h : s.step a = some s') :
    s.aborted = none ∧ Step s a s' := by
  unfold step at h
  split at h
  · cases h
  rename_i halive
  refine ⟨by simpa using halive, ?_⟩
  cases a with
  | enter t pszName pszFile nLine cs fTry =>
    simp only [enter] at h
    split at h
    · rename_i hp
      rcases pushLock_cases cs ⟨pszName, pszFile, nLine, fTry⟩ (s.lockstack t) s.lockdata with
        ⟨d, hd, hr⟩ | ⟨e, he, hr⟩
      · rw [enterCritical, hd] at h
        cases h
        exact Step.enter t pszName pszFile nLine cs fTry d hp.1 hr
      · rw [enterCritical, he] at h
        cases h
        exact Step.refuse t pszName pszFile nLine cs fTry e hr
    · cases h
  | lock t =>
    simp only [lock] at h
    split at h
    · cases h
    · rename_i cs hp
      obtain ⟨m, hm, rfl⟩ := Option.map_eq_some_iff.mp h
      exact Step.lock t cs m (by rw [hp]; rfl) hm
    · rename_i cs hp
      split at h
      · rename_i m hm
        cases h
        exact Step.lock t cs m (by rw [hp]; rfl) hm
      · obtain ⟨stack, hs, rfl⟩ := Option.map_eq_some_iff.mp h
        obtain ⟨i, hi⟩ := popLock_cases hs
        exact Step.giveUp t cs stack i hp hi
  | leave t cs =>
    simp only [leave] at h
    split at h
    · rename_i hp
      obtain ⟨stack, hs, h⟩ := Option.bind_eq_some_iff.mp h
      obtain ⟨m, hm, rfl⟩ := Option.map_eq_some_iff.mp h
      obtain ⟨i, hi⟩ := popLock_cases hs
      exact Step.leave t cs stack i m hp hi hm
    · cases h
  | destroy cs =>
    simp only [destroy] at h
    split at h
    · rename_i hp
      cases h
      exact Step.destroy cs hp.1 hp.2
    · cases h
  | exit =>
    cases h
    exact Step.exit

end Threads

/-- The threads `ι`, on a new `LockData`. -/
def threads (ι : Type*) [Fintype ι] [DecidableEq ι] : Machine (Threads ι) (Act ι) where
  init := .new
  step := Threads.step

theorem threads_step {ι : Type*} [Fintype ι] [DecidableEq ι] {s s' : Threads ι} {a : Act ι}
    (h : (threads ι).step s a = some s') : s.aborted = none ∧ Threads.Step s a s' :=
  Threads.step_cases h

end LearnFramework.Sync
