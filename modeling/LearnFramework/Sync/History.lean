import LearnFramework.Lib.Protocol
import LearnFramework.Sync.Locking

/-!
# What `lockorders` remembers

In every run, whatever the threads do, `lockorders` holds the pair (a, b) exactly
when some thread entered b with a in front of it on its stack and neither of the two
was destroyed since. A thread that enters a lock is stopped by `assert(false)` exactly
when such an order is on record the other way round (`exact_of_reachable`), and the two
stacks that are reported then show both orders (`tables_of_reachable`).
-/

namespace LearnFramework.Sync

open Machines Protocols LockData Threads

variable {ι : Type*} [Fintype ι] [DecidableEq ι] {s s' : Threads ι}

/-- Some thread entered `b` with `a` in front of it. -/
def Took (a b : Ptr) (e : Event) : Prop := ∃ before, e = .took b before ∧ a ∈ before

/-- One of the two locks is destroyed. -/
def Forgot (a b : Ptr) (e : Event) : Prop := e = .deleted a ∨ e = .deleted b

/-- The reported stacks hold the two locks of the mismatch in opposite orders. -/
def LockData.Mismatch.Shows (e : Mismatch) : Prop :=
  InOrder e.mismatch.1 e.mismatch.2 e.s2 ∧ InOrder e.mismatch.2 e.mismatch.1 e.s1

theorem consistent_step {a : Act ι} (h : s.lockdata.Consistent) (ha : Step s a s') :
    s'.lockdata.Consistent := by
  cases ha with
  | enter t pszName pszFile nLine cs fTry d hp hr =>
    exact hr.consistent h fun a ha => inOrder_pushed ha _
  | refuse t pszName pszFile nLine cs fTry e hr => exact h
  | lock t cs m hp hm => exact h
  | giveUp t cs stack i hp hs => exact h
  | leave t cs stack i m hp hs hm => exact h
  | destroy cs hm hp => exact h.deleteLock cs
  | exit => exact ⟨h.converse, h.asymm, h.shown⟩

theorem consistent_of_reachable (hs : (threads ι).Reachable s) : s.lockdata.Consistent :=
  hs.invariant consistent_new fun _ _ _ h ha => consistent_step h (threads_step ha).2

theorem shows_of_refused {c : Ptr} {l : CLockLocation} {lockstack : Option LockStack}
    {d : LockData} {e : Mismatch} (h : d.Consistent)
    (hr : Refused c (pushed c l lockstack) (ahead c lockstack) d e) :
    e.Shows := by
  obtain ⟨a, ha, -, hs, he, hs2⟩ := hr
  rw [Mismatch.Shows, he, hs2]
  exact ⟨inOrder_pushed ha l, h.shown c a e.s1 hs⟩

theorem shows_of_reachable (hs : (threads ι).Reachable s) :
    ∀ e, s.aborted = some e → e.Shows := by
  refine hs.invariant_of_reachable (I := fun s => ∀ e, s.aborted = some e → e.Shows)
    (fun e he => by cases he) ?_
  intro s a s' hr h ha e he
  obtain ⟨-, ha⟩ := threads_step ha
  cases ha with
  | refuse t pszName pszFile nLine cs fTry e' hr' =>
    cases he
    exact shows_of_refused (consistent_of_reachable hr) hr'
  | enter => exact h e he
  | lock => exact h e he
  | giveUp => exact h e he
  | leave => exact h e he
  | destroy => exact h e he
  | exit => exact h e he

/-- What holds of the tables of the detector. -/
structure Tables (s : Threads ι) : Prop where
  converse : ∀ a b, (b, a) ∈ s.lockdata.invlockorders ↔ (a, b) ∈ s.lockdata.lockorders
  asymm : ∀ a b, (a, b) ∈ s.lockdata.lockorders → (b, a) ∉ s.lockdata.lockorders
  shown : ∀ a b stack, s.lockdata.lockorders[(a, b)]? = some stack → InOrder a b stack
  destroy : ∀ cs s', (threads ι).step s (.destroy cs) = some s' →
    s.lockdata.available = true → ∀ a b, (a, b) ∈ s'.lockdata.lockorders ↔
      (a, b) ∈ s.lockdata.lockorders ∧ a ≠ cs ∧ b ≠ cs
  report : ∀ e, s.aborted = some e → e.Shows

/-- **The tables of the detector.** In every reachable state `invlockorders` is the
converse of `lockorders`, no two locks are recorded in both orders, every recorded
stack has both locks and shows their order, a destroyed lock loses exactly the pairs that
mention it, and a report has both locks on both stacks, in opposite orders. -/
theorem tables_of_reachable (hs : (threads ι).Reachable s) : Tables s := by
  have h := consistent_of_reachable hs
  refine ⟨h.converse, h.asymm, h.shown, fun cs s' ha hav a b => ?_, shows_of_reachable hs⟩
  obtain ⟨-, ha⟩ := threads_step ha
  cases ha with
  | destroy cs hm hp => exact mem_deleteLock cs hav h a b

/-- The second thread is stopped: it takes two locks in the opposite order. -/
theorem tables_of_stopped_run :
    ∃ s : Threads (Fin 2), s.aborted.isSome = true ∧ Tables s := by
  have h : ((threads (Fin 2)).run (threads (Fin 2)).init
      [.enter 0 "a" "main.cpp" 1 10 false, .lock 0, .enter 0 "b" "main.cpp" 2 20 false, .lock 0,
        .leave 0 20, .leave 0 10, .enter 1 "b" "main.cpp" 3 20 false, .lock 1,
        .enter 1 "a" "main.cpp" 4 10 true]).map (fun s => s.aborted.isSome) = some true := by
    decide
  obtain ⟨s, hs, ha⟩ := Machine.reachable_of_run h
  exact ⟨s, ha, tables_of_reachable hs⟩

/-! ## The record and the run -/

theorem not_forgot_took {a b c : Ptr} {before : List Ptr} : ¬Forgot a b (.took c before) := by
  rintro (h | h) <;> cases h

theorem took_iff {a b c : Ptr} {before : List Ptr} :
    Took a b (.took c before) ↔ b = c ∧ a ∈ before := by
  constructor
  · rintro ⟨_, h, ha⟩
    cases h
    exact ⟨rfl, ha⟩
  · rintro ⟨rfl, ha⟩
    exact ⟨before, rfl, ha⟩

theorem not_took_deleted {a b c : Ptr} : ¬Took a b (.deleted c) := by
  rintro ⟨_, h, -⟩
  cases h

theorem forgot_deleted {a b c : Ptr} : Forgot a b (.deleted c) ↔ ¬(a ≠ c ∧ b ≠ c) := by
  simp only [Forgot, Event.deleted.injEq, not_and_or, not_not, eq_comm (a := c)]

def Remembers (s : Threads ι) : Prop :=
  ∀ a b, (a, b) ∈ s.lockdata.lockorders ↔ Since (Took a b) (Forgot a b) s.history

theorem remembers_step {a : Act ι} (hd : s.lockdata.Consistent) (h : Remembers s)
    (ha : Step s a s') : Remembers s' := by
  cases ha with
  | enter t pszName pszFile nLine cs fTry d hp hr =>
    intro a b
    change (a, b) ∈ d.lockorders ↔ Since _ _ (s.history ++ [_])
    rw [since_concat, hr.mem, h a b, took_iff, and_iff_left not_forgot_took, or_comm]
  | refuse t pszName pszFile nLine cs fTry e hr => exact h
  | lock t cs m hp hm => exact h
  | giveUp t cs stack i hp hs => exact h
  | leave t cs stack i m hp hs hm => exact h
  | destroy cs hm hp =>
    intro a b
    by_cases hav : s.lockdata.available = true
    · simp only [hav, if_true]
      rw [since_concat, or_iff_right not_took_deleted, forgot_deleted, not_not, ← h a b,
        mem_deleteLock cs hav hd]
    · simp only [hav, if_false, Bool.false_eq_true]
      rw [deleteLock, if_neg hav]
      exact h a b
  | exit => exact h

theorem remembers_of_reachable (hs : (threads ι).Reachable s) : Remembers s := by
  refine hs.invariant_of_reachable (fun a b => ?_) ?_
  · exact iff_of_false Std.TreeMap.not_mem_emptyc not_since_nil
  · intro s a s' hr h ha
    exact remembers_step (consistent_of_reachable hr) h (threads_step ha).2

/-- The record is exact, and so is the complaint. -/
structure Exact (s : Threads ι) : Prop where
  recorded : ∀ a b,
    (a, b) ∈ s.lockdata.lockorders ↔ Since (Took a b) (Forgot a b) s.history
  stopped : ∀ t pszName pszFile nLine cs fTry s',
    (threads ι).step s (.enter t pszName pszFile nLine cs fTry) = some s' →
      (s'.aborted ≠ none ↔
        ∃ a ∈ ahead cs (s.lockstack t), Since (Took cs a) (Forgot cs a) s.history)

/-- **What the detector remembers, and when it stops the program.** A pair is recorded
exactly when its second lock was entered with the first one in front of it since both
exist. A thread that enters `cs` is stopped exactly when one of the locks in front of it
was so entered with `cs` in front. -/
theorem exact_of_reachable (hs : (threads ι).Reachable s) : Exact s := by
  have hd := consistent_of_reachable hs
  have hrem := remembers_of_reachable hs
  refine ⟨hrem, fun t pszName pszFile nLine cs fTry s' h => ?_⟩
  obtain ⟨halive, ha⟩ := threads_step h
  cases ha with
  | enter t pszName pszFile nLine cs fTry d hp hr =>
    refine iff_of_false (not_not.mpr halive) ?_
    rintro ⟨a, ha, hold⟩
    rw [← hrem] at hold
    by_cases hac : (a, cs) ∈ s.lockdata.lockorders
    · exact hd.asymm a cs hac hold
    · exact hr.fresh a ha hac hold
  | refuse t pszName pszFile nLine cs fTry e hr =>
    obtain ⟨a, ha, -, hs1, -⟩ := hr
    refine iff_of_true (Option.some_ne_none e) ⟨a, ha, ?_⟩
    rw [← hrem]
    exact mem_of_getElem? hs1

/-- A destroyed lock is forgotten: its address can then be taken in the other order. -/
theorem exact_of_destroyed_run :
    ∃ s : Threads (Fin 2), s.history.contains (.deleted 20) = true ∧ Exact s := by
  have h : ((threads (Fin 2)).run (threads (Fin 2)).init
      [.enter 0 "a" "main.cpp" 1 10 false, .lock 0, .enter 0 "b" "main.cpp" 2 20 false, .lock 0,
        .leave 0 20, .leave 0 10, .destroy 20, .enter 1 "b" "main.cpp" 3 20 false, .lock 1,
        .enter 1 "a" "main.cpp" 4 10 true]).map
          (fun s => s.history.contains (.deleted 20)) = some true := by
    decide
  obtain ⟨s, hs, ha⟩ := Machine.reachable_of_run h
  exact ⟨s, ha, exact_of_reachable hs⟩

end LearnFramework.Sync
