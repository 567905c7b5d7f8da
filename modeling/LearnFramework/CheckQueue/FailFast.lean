import LearnFramework.CheckQueue.Result
import LearnFramework.CheckQueue.Counters

/-!
# After a failure

Once `fAllOk` is false, a batch that is taken is taken with `fOk` false, and its checks
are skipped. Only the batches taken before go on, each until its own first failure
(`Ctl.live`). So what was executed in the session plus what is live never grows again
(`Step.spent_le`), and `Wait` returns false.
-/

namespace LearnFramework.CheckQueue

open Machines Families Pool

variable {T ι : Type*}

/-- The checks that a thread may still execute from its batch. -/
def Ctl.live : Ctl T → Nat
  | .working vChecks _ true => vChecks.length
  | _ => 0

@[simp] theorem Ctl.wake_live (c : Ctl T) : c.wake.live = c.live := by cases c <;> rfl

theorem Ctl.live_working_le (vChecks : List T) (n : UInt32) (fOk : Bool) :
    (Ctl.working vChecks n fOk).live ≤ vChecks.length := by
  cases fOk
  · exact Nat.zero_le _
  · exact le_rfl

theorem CCheckQueue.cleanUp_failed {q : CCheckQueue T} (h : q.fAllOk = false) (n : UInt32)
    (fOk : Bool) : (q.cleanUp n fOk).fAllOk = false := by
  rw [cleanUp_fAllOk, h, Bool.false_and]

/-- A failure is on record, or has been returned. -/
def Pool.Failed (s : Pool T ι) : Prop := s.q.fAllOk = false ∨ s.ctl none = .returned false

/-- `Wait` does not hand its result to the caller, so the session goes on. -/
def Act.inSession : Act T ι → Bool
  | .leave => false
  | _ => true

/-- What was executed in the session, and what may still be. -/
def Pool.spent [Fintype ι] (s : Pool T ι) : Nat :=
  s.session.executed.card + total Ctl.live s.ctl

variable [DecidableEq ι]

namespace Pool

section

variable {eval : T → Bool} {s s' : Pool T ι} {t : Option ι} {a : Act T ι}

/-- Another thread than a returned master moves. -/
theorem Failed.goto {q : CCheckQueue T} {session : Session T} {c : Ctl T} (h : s.Failed)
    (hq : s.q.fAllOk = false → q.fAllOk = false) (ht : ∀ r, s.ctl t ≠ .returned r) :
    (Pool.goto ⟨q, s.ctl, session⟩ t c).Failed := by
  rcases h with h | h
  · exact Or.inl (hq h)
  · refine Or.inr ((goto_ctl_of_ne _ c ?_).trans h)
    rintro rfl
    exact ht _ h

theorem Failed.acquire (h : s.Failed) (ha : Acquire s t s') : s'.Failed := by
  cases ha with
  | first fOk hc => exact h.goto id (by simp [hc])
  | report n fOk hc hn hw =>
    exact h.goto (fun hf => CCheckQueue.cleanUp_failed hf n fOk) (by simp [hc])
  | reportLast n fOk w hc hn hw hz =>
    subst hw
    have hc' : s.notifyMaster.ctl (some w) = .top n fOk :=
      (goto_ctl_of_ne s _ (by simp)).trans hc
    have hm : s.notifyMaster.Failed := by
      rcases h with h | h
      · exact Or.inl h
      · refine Or.inr ?_
        rw [notifyMaster, goto_ctl_self, h]
        rfl
    exact hm.goto (fun hf => CCheckQueue.cleanUp_failed hf n fOk) (by simp [hc'])
  | rewoken hc => exact h.goto id (by simp [hc])

theorem Failed.pass (h : s.Failed) (hc : s.ctl t = .testing) (hp : Pass s t s') :
    s'.Failed := by
  cases hp with
  | finish he hf hz =>
    rcases h with h | h
    · cases t with
      | none =>
        refine Or.inr ?_
        rw [goto_ctl_self, h]
      | some w => exact Or.inl h
    · refine Or.inr ((goto_ctl_of_ne _ _ ?_).trans h)
      rintro rfl
      rw [h] at hc
      cases hc
  | wait he hw => exact h.goto id (by simp [hc])
  | take rest batch hne hq hlen => exact h.goto id (by simp [hc])

/-- A failure stays on record until it is returned to the caller. -/
theorem Step.failed (h : Step eval s a s') (ha : a.inSession = true) (hf : s.Failed) :
    s'.Failed := by
  cases h with
  | enter t hc => exact hf.goto id (by simp [hc])
  | lock t s₁ _ hacq hp => exact (hf.acquire hacq).pass hacq.testing hp
  | wake t hc => exact hf.goto id (by simp [hc])
  | check t c rest n hc => exact hf.goto id (by simp [hc])
  | skip t c rest n hc => exact hf.goto id (by simp [hc])
  | clear t n fOk hc => exact hf.goto id (by simp [hc])
  | add vChecks pick s₁ hc hn =>
    rcases hf with hf | hf
    · exact Or.inl hf
    · rw [hf] at hc
      cases hc
  | leave r hc => cases ha

end

variable [Fintype ι] {eval : T → Bool} {nBatchSize : UInt32} {s s' : Pool T ι} {t : Option ι}
  {a : Act T ι}

theorem spent_goto (s : Pool T ι) (q : CCheckQueue T) (session : Session T) (t : Option ι)
    (c : Ctl T) :
    (Pool.goto ⟨q, s.ctl, session⟩ t c).spent + (s.ctl t).live + s.session.executed.card =
      s.spent + c.live + session.executed.card := by
  have h := total_goto Ctl.live s t c
  change session.executed.card + total Ctl.live (s.goto t c).ctl + _ + _ = _
  unfold spent
  omega

theorem spent_acquire (h : Acquire s t s') : s'.spent = s.spent := by
  cases h with
  | first fOk hc =>
    have hgoto := spent_goto s { s.q with nTotal := s.q.nTotal + 1 } s.session t .testing
    rw [hc] at hgoto
    exact Nat.add_right_cancel hgoto
  | report n fOk hc hn hw =>
    have hgoto := spent_goto s (s.q.cleanUp n fOk) s.session t .testing
    rw [hc] at hgoto
    exact Nat.add_right_cancel hgoto
  | reportLast n fOk w hc hn hw hz =>
    subst hw
    have hc' : s.notifyMaster.ctl (some w) = .top n fOk :=
      (goto_ctl_of_ne s _ (by simp)).trans hc
    have hm : s.notifyMaster.spent = s.spent :=
      congrArg (s.session.executed.card + ·) (total_of_wake Ctl.wake_live s.notifyMaster_ctl)
    have hgoto := spent_goto s.notifyMaster (s.q.cleanUp n fOk) s.session (some w) .testing
    rw [hc', hm] at hgoto
    exact Nat.add_right_cancel hgoto
  | rewoken hc =>
    have hgoto := spent_goto s { s.q with nIdle := s.q.nIdle - 1 } s.session t .testing
    rw [hc] at hgoto
    exact Nat.add_right_cancel hgoto

/-- A batch is taken with the `fAllOk` of the queue. -/
theorem spent_pass (hf : s.q.fAllOk = false ∨ s.q.queue = []) (hc : s.ctl t = .testing)
    (h : Pass s t s') : s'.spent = s.spent := by
  cases h with
  | finish he hq hz =>
    have hgoto := spent_goto s { s.q with
      nTotal := s.q.nTotal - 1
      fAllOk := if t.isNone then true else s.q.fAllOk } s.session t (.returned s.q.fAllOk)
    rw [hc] at hgoto
    exact Nat.add_right_cancel hgoto
  | wait he hw =>
    have hgoto := spent_goto s { s.q with nIdle := s.q.nIdle + 1 } s.session t .waiting
    rw [hc] at hgoto
    exact Nat.add_right_cancel hgoto
  | take rest batch hne hq hlen =>
    have hfalse : s.q.fAllOk = false := hf.resolve_right hne
    have hgoto := spent_goto s { s.q with queue := rest }
      { s.session with taken := s.session.taken + batch } t (.working batch s.q.nNow false)
    rw [hc] at hgoto
    rw [hfalse]
    exact Nat.add_right_cancel hgoto

/-- After a failure no step adds to what the session executes. -/
theorem Step.spent_le (h : Step eval s a s') (ha : a.inSession = true) (hf : s.Failed)
    (hcl : Closed s) : s'.spent ≤ s.spent := by
  cases h with
  | enter t hc =>
    have hgoto := spent_goto s s.q s.session t (.top 0 true)
    rw [hc] at hgoto
    exact (Nat.add_right_cancel hgoto).le
  | lock t s₁ _ hacq hp =>
    have hf₁ : s₁.q.fAllOk = false ∨ s₁.q.queue = [] := by
      rcases hf.acquire hacq with h | h
      · exact Or.inl h
      · exact Or.inr ((hcl.acquire hacq) false h).1
    rw [spent_pass hf₁ hacq.testing hp, spent_acquire hacq]
  | wake t hc =>
    have hgoto := spent_goto s s.q s.session t .woken
    rw [hc] at hgoto
    exact (Nat.add_right_cancel hgoto).le
  | check t c rest n hc =>
    -- one check is executed, and one less is live
    have hgoto := spent_goto s s.q { s.session with executed := c ::ₘ s.session.executed } t
      (.working rest n (eval c))
    have hbefore : (Ctl.working (c :: rest) n true).live = rest.length + 1 := rfl
    have hafter := Ctl.live_working_le rest n (eval c)
    rw [hc, hbefore, Multiset.card_cons] at hgoto
    omega
  | skip t c rest n hc =>
    have hgoto := spent_goto s s.q s.session t (.working rest n false)
    rw [hc] at hgoto
    exact (Nat.add_right_cancel hgoto).le
  | clear t n fOk hc =>
    have hgoto := spent_goto s s.q s.session t (.top n fOk)
    have hnone : (Ctl.working ([] : List T) n fOk).live = 0 := by cases fOk <;> rfl
    rw [hc, hnone] at hgoto
    exact (Nat.add_right_cancel hgoto).le
  | add vChecks pick s₁ hc hn =>
    have hctl : total Ctl.live s₁.ctl = total Ctl.live s.ctl :=
      total_of_wake Ctl.wake_live hn.ctl
    change s.session.executed.card + total Ctl.live s₁.ctl ≤ _
    rw [hctl]
    exact le_rfl
  | leave r hc => cases ha

/-! ## How much is live -/

omit [Fintype ι] in
theorem live_goto {b : Nat} (h : ∀ i, (s.ctl i).live ≤ b) {q : CCheckQueue T}
    {session : Session T} {c : Ctl T} (hc : c.live ≤ b) (i : Option ι) :
    ((Pool.goto ⟨q, s.ctl, session⟩ t c).ctl i).live ≤ b :=
  forall_goto (P := fun _ c => c.live ≤ b) (fun i _ => h i) hc i

omit [DecidableEq ι] [Fintype ι] in
theorem live_wake {b : Nat} (h : ∀ i, (s.ctl i).live ≤ b) {ctl : Option ι → Ctl T}
    (hc : ∀ i, ctl i = s.ctl i ∨ ctl i = (s.ctl i).wake) (i : Option ι) :
    (ctl i).live ≤ b := by
  rcases hc i with hi | hi
  · rw [hi]
    exact h i
  · rw [hi, Ctl.wake_live]
    exact h i

/-- No batch is larger than the batch size, or than 1 if that is 0. -/
theorem Step.live_le (h : Step eval s a s') (hs : Counters nBatchSize s)
    (hb : ∀ i, (s.ctl i).live ≤ max 1 nBatchSize.toNat) :
    ∀ i, (s'.ctl i).live ≤ max 1 nBatchSize.toNat := by
  cases h with
  | lock t s₁ _ hacq hp =>
    have h₁ : ∀ i, (s₁.ctl i).live ≤ max 1 nBatchSize.toNat := by
      cases hacq with
      | reportLast n fOk w hc hn hw hz =>
        exact live_goto (live_wake hb s.notifyMaster_ctl) (Nat.zero_le _)
      | _ => exact live_goto hb (Nat.zero_le _)
    cases hp with
    | take rest batch hne hq hlen =>
      have hsize := s₁.q.nNow_le_nBatchSize
      rw [(hs.acquire hacq).nBatchSize_eq, ← hlen] at hsize
      exact live_goto h₁ ((Ctl.live_working_le _ _ _).trans hsize)
    | _ => exact live_goto h₁ (Nat.zero_le _)
  | check t c rest n hc =>
    have hlive := hb t
    rw [hc] at hlive
    exact live_goto hb ((Ctl.live_working_le _ _ _).trans (Nat.le_of_succ_le hlive))
  | add vChecks pick s₁ hc hn => exact live_wake hb hn.ctl
  | _ => exact live_goto hb (Nat.zero_le _)

theorem live_of_reachable (hs : (pool eval nBatchSize).Reachable s) :
    total Ctl.live s.ctl ≤ (Fintype.card ι + 1) * max 1 nBatchSize.toNat := by
  have hb : ∀ i, (s.ctl i).live ≤ max 1 nBatchSize.toNat := by
    refine hs.invariant_of_reachable (I := fun s => ∀ i, (s.ctl i).live ≤ _)
      (fun i => Nat.zero_le _) fun u a v hu h hv => ?_
    exact (step_cases hv).live_le (counters_of_reachable hu) h
  have hsum := total_le hb
  rwa [Fintype.card_option] at hsum

end Pool

variable [Fintype ι]

/-- The runs of the pool inside one session. -/
def oneSession (eval : T → Bool) (nBatchSize : UInt32) : Machine (Pool T ι) (Act T ι) :=
  (boundedPool eval nBatchSize).guarded fun _ a _ => a.inSession

/-- **After a failure.** Once a failure is on record in `fAllOk`, the rest of the session
executes no more than what is live in the batches taken before, at most a batch for each
thread, whatever is still queued or added; and if `Wait` returns, it returns false. -/
theorem fail_fast (eval : T → Bool) (nBatchSize : UInt32) (s s' : Pool T ι)
    (hs : (boundedPool eval nBatchSize).Reachable s) (hf : s.q.fAllOk = false)
    (as : List (Act T ι)) (h : (oneSession eval nBatchSize).run s as = some s') :
    s'.session.executed.card ≤ s.session.executed.card + total Ctl.live s.ctl ∧
      total Ctl.live s.ctl ≤ (Fintype.card ι + 1) * max 1 nBatchSize.toNat ∧
      ∀ r, s'.ctl none = .returned r → r = false := by
  obtain ⟨hr, hfailed, hle⟩ : (boundedPool eval nBatchSize).Reachable s' ∧ s'.Failed ∧
      s'.spent ≤ s.spent := by
    refine Machine.run_invariant (M := oneSession eval nBatchSize)
      (I := fun u => (boundedPool eval nBatchSize).Reachable u ∧ u.Failed ∧ u.spent ≤ s.spent)
      ?_ ⟨hs, Or.inl hf, le_rfl⟩ h
    rintro u a v ⟨hu, hfu, hle⟩ hv
    obtain ⟨hv, ha⟩ := Machine.guarded_step.mp hv
    have hstep := step_cases (Machine.guarded_step.mp hv).1
    refine ⟨hu.step hv, hstep.failed ha hfu, ?_⟩
    exact (hstep.spent_le ha hfu (closed_of_reachable hu)).trans hle
  refine ⟨(Nat.le_add_right _ _).trans hle, live_of_reachable hs.of_guarded, fun r hret => ?_⟩
  rcases hfailed with hfalse | hfalse
  · have htrue := (closed_of_reachable hr r hret).2.2
    rw [hfalse] at htrue
    cases htrue
  · rw [hfalse] at hret
    cases hret
    rfl

/-- The worker reports a failure; the master skips the check that is left. -/
theorem fail_fast_skipped_check :
    ∃ s s' : Pool Bool (Fin 1), s'.ctl none = .returned false ∧ s'.session.added.card = 2 ∧
      (s'.session.executed.card ≤ s.session.executed.card + total Ctl.live s.ctl ∧
        total Ctl.live s.ctl ≤ (Fintype.card (Fin 1) + 1) * max 1 (1 : UInt32).toNat ∧
        ∀ r, s'.ctl none = .returned r → r = false) := by
  have h : (((boundedPool (ι := Fin 1) id 1).run (boundedPool id 1).init
      [.enter (some 0), .lock (some 0), .add [true, false] none, .lock (some 0),
        .exec (some 0), .exec (some 0), .lock (some 0)]).bind fun s =>
        ((oneSession id 1).run s [.enter none, .lock none, .exec (some 0), .exec (some 0),
          .lock (some 0), .lock none]).map fun s' => (s, s')).map
            (fun p => decide (p.1.q.fAllOk = false ∧ p.2.ctl none = .returned false ∧
              p.2.session.added.card = 2)) = some true := by decide
  obtain ⟨p, hp, hd⟩ := Option.map_eq_some_iff.mp h
  obtain ⟨s, hs, hrun⟩ := Option.bind_eq_some_iff.mp hp
  obtain ⟨s', hs', rfl⟩ := Option.map_eq_some_iff.mp hrun
  obtain ⟨hf, hret, hcard⟩ := of_decide_eq_true hd
  exact ⟨s, s', hret, hcard, fail_fast id 1 s s' ⟨_, hs⟩ hf _ hs'⟩

end LearnFramework.CheckQueue
