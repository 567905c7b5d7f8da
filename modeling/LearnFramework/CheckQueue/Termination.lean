import LearnFramework.CheckQueue.Alone
import LearnFramework.CheckQueue.Wakeup

/-!
# `Wait` terminates

While the master is in `Wait`, every step of a thread in `Loop` that is not a spurious
wake-up lowers one number (`work_step`): a queued check counts 4, a check of a batch 1,
and a thread at most 3 by its place in the loop. A queued check pays for the batch it
ends up in, and a report pays for the notification it may send. So no run of the pool
goes on for ever, and since some thread can always go on (`step_of_inLoop`), a run that
has come to its end has the master back from `Wait`.
-/

namespace LearnFramework.CheckQueue

open Machines Families Pool

variable {T ι : Type*}

/-- The steps a thread still causes, the queue apart. -/
def Ctl.work : Ctl T → Nat
  | .outside => 2
  | .top nNow _ => if nNow = 0 then 1 else 2
  | .testing => 0
  | .waiting => 0
  | .woken => 1
  | .working vChecks _ _ => vChecks.length + 3
  | .returned _ => 0

/-- In `Wait`, or back from it. -/
def Ctl.inWait (c : Ctl T) : Prop := c.inLoop = true ∨ ∃ r, c = .returned r

theorem Ctl.inWait.wake {c : Ctl T} (h : c.inWait) : c.wake.inWait := by
  cases c with
  | waiting => exact Or.inl rfl
  | _ => exact h

def Act.isWake : Act T ι → Bool
  | .wake _ => true
  | _ => false

theorem Ctl.wake_work_le (c : Ctl T) : c.wake.work ≤ c.work + 1 := by
  cases c <;> simp [Ctl.wake, Ctl.work]

theorem Ctl.top_work_le (n : UInt32) (fOk : Bool) : (Ctl.top n fOk : Ctl T).work ≤ 2 := by
  rw [Ctl.work]
  split <;> decide

variable [Fintype ι] [DecidableEq ι]

/-- What is left to do: queued checks, rests of batches, and places in the loop. -/
def Pool.work (s : Pool T ι) : Nat := 4 * s.q.queue.length + total Ctl.work s.ctl

namespace Pool

variable {eval : T → Bool} {nBatchSize : UInt32} {s s' : Pool T ι}

omit [DecidableEq ι] in
theorem work_eq (s : Pool T ι) :
    s.work = 4 * s.q.queue.length + total Ctl.work s.ctl := rfl

theorem work_goto (s : Pool T ι) (t : Option ι) (c : Ctl T) :
    (s.goto t c).work + (s.ctl t).work = s.work + c.work := by
  have h := total_goto Ctl.work s t c
  rw [work_eq, work_eq, goto_q]
  omega

/-- Taking the mutex pays for the way back to the mutex. -/
theorem work_acquire {t : Option ι} (h : Acquire s t s') : s'.work + 1 ≤ s.work := by
  cases h with
  | first fOk hc =>
    have hgoto := work_goto { s with q := { s.q with nTotal := s.q.nTotal + 1 } } t .testing
    rw [hc] at hgoto
    simp only [Ctl.work, if_true] at hgoto
    exact Nat.le_of_eq hgoto
  | report n fOk hc hn hw =>
    have hgoto := work_goto { s with q := s.q.cleanUp n fOk } t .testing
    have hq : ({ s with q := s.q.cleanUp n fOk } : Pool T ι).work = s.work := by
      rw [work_eq, work_eq, CCheckQueue.cleanUp_queue]
    rw [hq, hc] at hgoto
    simp only [Ctl.work, if_neg hn] at hgoto
    omega
  | reportLast n fOk w hc hn hw hz =>
    -- the report counts 2: one for the way back, one for the notified master
    subst hw
    let s₁ : Pool T ι := { s with q := s.q.cleanUp n fOk }
    have hq : s₁.work = s.work := by
      rw [work_eq, work_eq, CCheckQueue.cleanUp_queue]
    have h1 : s₁.notifyMaster.work + (s.ctl none).work = s₁.work + (s.ctl none).wake.work :=
      work_goto s₁ none _
    have h2 := work_goto s₁.notifyMaster (some w) .testing
    have hself : s₁.notifyMaster.ctl (some w) = .top n fOk :=
      (goto_ctl_of_ne s₁ _ (by simp)).trans hc
    have hwake := (s.ctl none).wake_work_le
    rw [hself] at h2
    simp only [Ctl.work, if_neg hn] at h2
    change (s₁.notifyMaster.goto (some w) .testing).work + 1 ≤ _
    omega
  | rewoken hc =>
    have hgoto := work_goto { s with q := { s.q with nIdle := s.q.nIdle - 1 } } t .testing
    rw [hc] at hgoto
    simp only [Ctl.work] at hgoto
    exact Nat.le_of_eq hgoto

theorem work_pass {t : Option ι} (hc : s.ctl t = .testing) (h : Pass s t s') :
    s'.work ≤ s.work := by
  cases h with
  | finish he hf hz =>
    have hgoto := work_goto { s with
      q := { s.q with
        nTotal := s.q.nTotal - 1
        fAllOk := if t.isNone then true else s.q.fAllOk } } t (.returned s.q.fAllOk)
    rw [hc] at hgoto
    exact Nat.le_of_eq hgoto
  | wait he hw =>
    have hgoto := work_goto { s with q := { s.q with nIdle := s.q.nIdle + 1 } } t .waiting
    rw [hc] at hgoto
    exact Nat.le_of_eq hgoto
  | take rest batch hne hq hlen =>
    -- at least one check leaves the queue, and pays 3 for the way to the report
    have htot := total_goto Ctl.work s t (.working batch s.q.nNow s.q.fAllOk)
    have hpos := s.q.nNow_pos
    have hsplit : s.q.queue.length = rest.length + batch.length := by
      rw [hq, List.length_append, List.length_reverse]
    rw [hc] at htot
    change 4 * rest.length + total Ctl.work (s.goto t _).ctl ≤ s.work
    rw [work_eq]
    simp only [Ctl.work] at htot
    omega

/-- One step of a thread in `Loop`, or of a worker that enters it. -/
theorem work_step {a : Act T ι} (h : Step eval s a s') (ha : a.inLoop = true) :
    s'.work + 1 ≤ s.work + if a.isWake then 2 else 0 := by
  cases h with
  | enter t hc =>
    have hgoto := work_goto s t (.top 0 true)
    rw [hc] at hgoto
    simp only [Ctl.work, if_true] at hgoto
    exact Nat.le_of_eq (Nat.add_right_cancel (m := 1) hgoto)
  | lock t s₁ _ hacq hp =>
    have h1 := work_acquire hacq
    have h2 := work_pass hacq.testing hp
    exact le_trans (Nat.succ_le_succ h2) h1
  | wake t hc =>
    have hgoto := work_goto s t .woken
    rw [hc] at hgoto
    simp only [Ctl.work, Act.isWake, if_true] at hgoto ⊢
    omega
  | check t c rest n hc =>
    have hgoto := work_goto { s with
      session := { s.session with executed := c ::ₘ s.session.executed } } t
        (.working rest n (eval c))
    rw [hc] at hgoto
    have hsame : ({ s with
      session := { s.session with executed := c ::ₘ s.session.executed } } : Pool T ι).work =
        s.work := rfl
    simp only [Ctl.work, List.length_cons] at hgoto
    rw [hsame] at hgoto
    simp only [Act.isWake, Bool.false_eq_true, if_false]
    omega
  | skip t c rest n hc =>
    have hgoto := work_goto s t (.working rest n false)
    rw [hc] at hgoto
    simp only [Ctl.work, List.length_cons] at hgoto
    simp only [Act.isWake, Bool.false_eq_true, if_false]
    omega
  | clear t n fOk hc =>
    have hgoto := work_goto s t (.top n fOk)
    have htop := Ctl.top_work_le (T := T) n fOk
    rw [hc] at hgoto
    have hwork : (Ctl.working ([] : List T) n fOk).work = 3 := rfl
    simp only [Act.isWake, Bool.false_eq_true, if_false]
    omega
  | add vChecks pick s₁ hc hn => cases ha
  | leave r hc => cases ha

omit [Fintype ι] in
/-- A master in `Wait` that moves is still in `Wait`, or has returned. -/
theorem Step.waits {a : Act T ι} (h : Step eval s a s') (ha : a.inLoop = true)
    (hw : (s.ctl none).inWait) : (s'.ctl none).inWait := by
  have hgoto : ∀ (u : Pool T ι) (t : Option ι) (c : Ctl T), (u.ctl none).inWait → c.inWait →
      ((u.goto t c).ctl none).inWait := by
    intro u t c hu hc
    by_cases ht : none = t
    · rw [← ht, goto_ctl_self]
      exact hc
    · rw [goto_ctl_of_ne u c ht]
      exact hu
  cases h with
  | enter t hc => exact hgoto _ t _ hw (Or.inl rfl)
  | lock t s₁ _ hacq hp =>
    have h₁ : (s₁.ctl none).inWait := by
      cases hacq with
      | reportLast n fOk w hc hn hw' hz =>
        refine hgoto _ t _ ?_ (Or.inl rfl)
        exact hgoto _ none _ hw hw.wake
      | first fOk hc => exact hgoto _ t _ hw (Or.inl rfl)
      | report n fOk hc hn hw' => exact hgoto _ t _ hw (Or.inl rfl)
      | rewoken hc => exact hgoto _ t _ hw (Or.inl rfl)
    cases hp with
    | finish he hf hz => exact hgoto _ t _ h₁ (Or.inr ⟨_, rfl⟩)
    | wait he hw' => exact hgoto _ t _ h₁ (Or.inl rfl)
    | take rest batch hne hq hlen => exact hgoto _ t _ h₁ (Or.inl rfl)
  | wake t hc => exact hgoto _ t _ hw (Or.inl rfl)
  | check t c rest n hc => exact hgoto _ t _ hw (Or.inl rfl)
  | skip t c rest n hc => exact hgoto _ t _ hw (Or.inl rfl)
  | clear t n fOk hc => exact hgoto _ t _ hw (Or.inl rfl)
  | add vChecks pick s₁ hc hn => cases ha
  | leave r hc => cases ha

/-- While the master is in `Loop`, an awake thread there has a step to take. -/
theorem step_of_inLoop (hs : (pool eval nBatchSize).Reachable s)
    (hm : (s.ctl none).inLoop = true) :
    ∃ t u, s.step eval (.lock t) = some u ∨ s.step eval (.exec t) = some u := by
  have ha := awake_of_reachable hs
  obtain ⟨t, hb⟩ : ∃ t, (s.ctl t).Busy := by
    by_cases hw : s.ctl none = .waiting
    · rcases master_waits_for (ledger_of_reachable hs) ha hw with h | ⟨w, hp⟩
      · exact ha.workers h ⟨none, hw⟩
      · exact ⟨some w, busy_of_pending hp⟩
    · exact ⟨none, hm, hw⟩
  obtain ⟨u, hu⟩ := busy_enabled eval (settled_of_reachable hs) hb
  exact ⟨t, u, hu⟩

end Pool

/-- **`Wait` terminates.** Once the master is in `Wait`, any run of the threads is no
longer than what is left to do, plus two steps for each spurious wake-up; while `Wait`
has not returned, some thread has a step to take that is not a wake-up; so a run that
cannot go on ends with `Wait` returned. -/
theorem wait_terminates (eval : T → Bool) (nBatchSize : UInt32) (s s' : Pool T ι)
    (hs : (pool eval nBatchSize).Reachable s) (hm : (s.ctl none).inLoop = true)
    (as : List (Act T ι)) (h : (loop eval nBatchSize).run s as = some s') :
    as.length ≤ s.work + 2 * as.countP Act.isWake ∧
      ((s'.ctl none).inLoop = true → ∃ t u,
        (loop eval nBatchSize).step s' (.lock t) = some u ∨
          (loop eval nBatchSize).step s' (.exec t) = some u) ∧
      ((s'.ctl none).inLoop = false → ∃ r, s'.ctl none = .returned r) := by
  have hlen := Machine.run_length_le_add (M := loop (ι := ι) eval nBatchSize)
    (I := fun _ => True) (μ := Pool.work)
    (fun u a v _ hv => ⟨trivial,
      work_step (step_cases (Machine.guarded_step.mp hv).1) (Machine.guarded_step.mp hv).2⟩)
    trivial h
  have hwait : (s'.ctl none).inWait := by
    refine Machine.run_invariant (M := loop (ι := ι) eval nBatchSize)
      (I := fun u => (u.ctl none).inWait) ?_ (Or.inl hm) h
    intro u a v hu hv
    obtain ⟨hv, ha⟩ := Machine.guarded_step.mp hv
    exact (step_cases hv).waits ha hu
  refine ⟨(Nat.le_add_right _ _).trans hlen, fun hin => ?_, fun hout => ?_⟩
  · have hs' := hs.trans ⟨as, Machine.run_of_guarded h⟩
    obtain ⟨t, u, hu⟩ := step_of_inLoop hs' hin
    refine ⟨t, u, ?_⟩
    rcases hu with hu | hu
    · exact Or.inl (Machine.guarded_step.mpr ⟨hu, rfl⟩)
    · exact Or.inr (Machine.guarded_step.mpr ⟨hu, rfl⟩)
  · rcases hwait with hin | hr
    · rw [hin] at hout
      cases hout
    · exact hr

/-- Six steps for a check that the worker takes while the master waits. -/
theorem wait_terminates_one_check :
    ∃ s s' : Pool Bool (Fin 1), s'.ctl none = .returned true ∧
      (6 ≤ s.work + 2 * 0 ∧
        ((s'.ctl none).inLoop = true → ∃ t u,
          (loop id 128).step s' (.lock t) = some u ∨ (loop id 128).step s' (.exec t) = some u) ∧
        ((s'.ctl none).inLoop = false → ∃ r, s'.ctl none = .returned r)) := by
  have h : (((pool (ι := Fin 1) id 128).run (pool id 128).init
      [.enter (some 0), .lock (some 0), .add [true] (some 0), .enter none]).bind fun s =>
        ((loop id 128).run s [.lock (some 0), .lock none, .exec (some 0), .exec (some 0),
          .lock (some 0), .lock none]).map fun s' => (s, s')).map
            (fun p => decide ((p.1.ctl none).inLoop = true ∧ p.2.ctl none = .returned true)) =
              some true := by decide
  obtain ⟨p, hp, hd⟩ := Option.map_eq_some_iff.mp h
  obtain ⟨s, hs, hrun⟩ := Option.bind_eq_some_iff.mp hp
  obtain ⟨s', hs', rfl⟩ := Option.map_eq_some_iff.mp hrun
  obtain ⟨hin, hret⟩ := of_decide_eq_true hd
  exact ⟨s, s', hret, wait_terminates id 128 s s' ⟨_, hs⟩ hin _ hs'⟩

end LearnFramework.CheckQueue
