import LearnFramework.CheckQueue.Ledger

/-!
# No lost wake-up

In every reachable state of the pool, a queue that is not empty has an awake
thread in `Loop` as soon as some thread waits (`Awake.workers`), and a waiting
master still has something to wait for (`Awake.master`). The runs include those
without spurious wake-ups, so nothing here relies on one.

The two facts are inductive because a thread goes to sleep only with the queue
empty and, for the master, with `nTodo` not 0; the queue grows only in `Add`,
which notifies, and `nTodo` falls only in the clean-up, which notifies.
-/

namespace LearnFramework.CheckQueue

open Machines Families Pool

variable {T ι : Type*}

/-- In `Loop` and not asleep. -/
def Ctl.Busy (c : Ctl T) : Prop := c.inLoop = true ∧ c ≠ .waiting

structure Awake (s : Pool T ι) : Prop where
  workers : s.q.queue ≠ [] → (∃ t, s.ctl t = .waiting) → ∃ t, (s.ctl t).Busy
  master : s.ctl none = .waiting → s.q.nTodo ≠ 0

/-- Between critical sections no thread is inside one. -/
def Settled (s : Pool T ι) : Prop := ∀ t, s.ctl t ≠ .testing

variable [DecidableEq ι]

namespace Awake

/-- A thread that moves and stays awake. -/
theorem busy {s : Pool T ι} (h : Awake s) {q : CCheckQueue T} {session : Session T}
    {t : Option ι} {c : Ctl T} (hn : q.nTodo = s.q.nTodo) (hc : c.Busy) :
    Awake (Pool.goto ⟨q, s.ctl, session⟩ t c) := by
  refine ⟨fun _ _ => ⟨t, by rwa [goto_ctl_self]⟩, fun hm => ?_⟩
  cases t with
  | none =>
    rw [goto_ctl_self] at hm
    exact absurd hm hc.2
  | some w =>
    rw [goto_ctl_of_ne _ _ (by simp)] at hm
    rw [goto_q, hn]
    exact h.master hm

theorem acquire {s s' : Pool T ι} {t : Option ι} (h : Awake s) (ha : Acquire s t s') :
    Awake s' := by
  have hb : (.testing : Ctl T).Busy := ⟨rfl, by simp⟩
  cases ha with
  | first fOk hc => exact h.busy rfl hb
  | report n fOk hc hn hw =>
    refine ⟨fun _ _ => ⟨t, by rwa [goto_ctl_self]⟩, fun hm => ?_⟩
    rcases hw with hw | rfl
    · simpa using hw
    · rw [goto_ctl_self] at hm
      cases hm
  | reportLast n fOk w hc hn hw hz =>
    subst hw
    refine ⟨fun _ _ => ⟨some w, by rwa [goto_ctl_self]⟩, fun hm => ?_⟩
    -- The master has just been notified.
    rw [goto_ctl_of_ne _ _ (by simp), notifyMaster, goto_ctl_self] at hm
    exact absurd hm (Ctl.wake_ne_waiting _)
  | rewoken hc => exact h.busy rfl hb

theorem pass {s s' : Pool T ι} {t : Option ι} (h : Awake s) (hp : Pass s t s') : Awake s' := by
  cases hp with
  | finish he hf hz =>
    refine ⟨fun hq => absurd he hq, fun hm => ?_⟩
    cases t with
    | none =>
      rw [goto_ctl_self] at hm
      cases hm
    | some w =>
      rw [goto_ctl_of_ne _ _ (by simp)] at hm
      exact h.master hm
  | wait he hw =>
    refine ⟨fun hq => absurd he hq, fun hm => ?_⟩
    cases t with
    | none => exact hw rfl
    | some w =>
      rw [goto_ctl_of_ne _ _ (by simp)] at hm
      exact h.master hm
  | take rest batch hne hq hlen => exact h.busy rfl ⟨rfl, by simp⟩

theorem notify {s s' : Pool T ι} {vChecks : List T} {session : Session T} (h : Awake s)
    (hc : s.ctl none = .outside) (hn : Notify s vChecks s') :
    Awake { s' with q := s.q.add vChecks, session := session } := by
  have hmaster : s'.ctl none = .outside := hn.master.trans hc
  refine ⟨?_, fun hm => ?_⟩
  · rintro hq ⟨t, ht⟩
    -- The master is outside, so a waiting thread is a worker.
    obtain ⟨w, rfl⟩ : ∃ w, t = some w := by
      cases t with
      | none => exact absurd (hmaster.symm.trans ht) (by simp)
      | some w => exact ⟨w, rfl⟩
    cases hn with
    | nothing h0 =>
      subst h0
      exact h.workers (by simpa using hq) ⟨some w, ht⟩
    | one w' h1 hw => exact ⟨some w', by rw [goto_ctl_self]; exact ⟨rfl, by simp⟩⟩
    | nobody h1 hw => exact absurd ht (hw w)
    | all h1 => exact absurd ht (Ctl.wake_ne_waiting _)
  · rw [hmaster] at hm
    cases hm

/-- One step keeps the pool awake. -/
theorem step {eval : T → Bool} {s s' : Pool T ι} {a : Act T ι} (h : Awake s)
    (hs : Step eval s a s') : Awake s' := by
  cases hs with
  | enter t hc => exact h.busy rfl ⟨rfl, by simp⟩
  | lock t s₁ _ ha hp => exact (h.acquire ha).pass hp
  | wake t hc => exact h.busy rfl ⟨rfl, by simp⟩
  | check t c rest n hc => exact h.busy rfl ⟨rfl, by simp⟩
  | skip t c rest n hc => exact h.busy rfl ⟨rfl, by simp⟩
  | clear t n fOk hc => exact h.busy rfl ⟨rfl, by simp⟩
  | add vChecks pick s₁ hc hn => exact h.notify hc hn
  | leave r hc =>
    refine ⟨?_, fun hm => ?_⟩
    · rintro hq ⟨t, ht⟩
      have hne : t ≠ none := by
        rintro rfl
        rw [goto_ctl_self] at ht
        cases ht
      rw [goto_ctl_of_ne _ _ hne] at ht
      obtain ⟨t', hb⟩ := h.workers hq ⟨t, ht⟩
      have hne' : t' ≠ none := by
        rintro rfl
        rw [hc] at hb
        exact absurd hb.1 (by simp [Ctl.inLoop])
      exact ⟨t', by rw [goto_ctl_of_ne _ _ hne']; exact hb⟩
    · rw [goto_ctl_self] at hm
      cases hm

end Awake

theorem Settled.goto {s : Pool T ι} (h : Settled s) {q : CCheckQueue T} {session : Session T}
    {t : Option ι} {c : Ctl T} (hc : c ≠ .testing) :
    Settled (Pool.goto ⟨q, s.ctl, session⟩ t c) :=
  forall_goto (P := fun _ c => c ≠ .testing) (fun i _ => h i) hc

theorem Settled.step {eval : T → Bool} {s s' : Pool T ι} {a : Act T ι} (h : Settled s)
    (hs : Step eval s a s') : Settled s' := by
  have hwake : ∀ c : Ctl T, c ≠ .testing → c.wake ≠ .testing := by
    intro c hc
    cases c <;> simp_all [Ctl.wake]
  cases hs with
  | lock t s₁ _ ha hp =>
    have h₁ : ∀ i, i ≠ t → s₁.ctl i ≠ .testing := by
      intro i hi
      cases ha with
      | reportLast n fOk w hc hn hw hz =>
        rw [goto_ctl_of_ne _ _ hi]
        rcases s.notifyMaster_ctl i with he | he
        · exact he ▸ h i
        · exact he ▸ hwake _ (h i)
      | _ =>
        rw [goto_ctl_of_ne _ _ hi]
        exact h i
    cases hp <;> exact forall_goto (P := fun _ c => c ≠ .testing) h₁ (by simp)
  | add vChecks pick s₁ hc hn =>
    intro i
    rcases hn.ctl i with he | he
    · exact he ▸ h i
    · exact he ▸ hwake _ (h i)
  | _ => exact h.goto (by simp)

variable [Fintype ι] {eval : T → Bool} {nBatchSize : UInt32}

theorem awake_of_reachable {s : Pool T ι} (hs : (pool eval nBatchSize).Reachable s) :
    Awake s := by
  refine hs.invariant ⟨fun h => absurd rfl h, fun h => ?_⟩ fun s a t h ha => h.step (step_cases ha)
  cases h

theorem settled_of_reachable {s : Pool T ι} (hs : (pool eval nBatchSize).Reachable s) :
    Settled s :=
  hs.invariant (fun _ h => nomatch h) fun _ _ _ h ha => h.step (step_cases ha)

/-- An awake thread has a step of its own, without any wake-up. -/
theorem busy_enabled (eval : T → Bool) {s : Pool T ι} (hs : Settled s) {t : Option ι}
    (hb : (s.ctl t).Busy) :
    ∃ s', s.step eval (.lock t) = some s' ∨ s.step eval (.exec t) = some s' := by
  cases hc : s.ctl t with
  | top n fOk =>
    obtain ⟨s', h⟩ := lock_enabled eval s t (Or.inl ⟨n, fOk, hc⟩)
    exact ⟨s', Or.inl h⟩
  | woken =>
    obtain ⟨s', h⟩ := lock_enabled eval s t (Or.inr hc)
    exact ⟨s', Or.inl h⟩
  | working vChecks n fOk =>
    obtain ⟨s', h⟩ := exec_enabled eval s t vChecks n fOk hc
    exact ⟨s', Or.inr h⟩
  | testing => exact absurd hc (hs t)
  | waiting => exact absurd hc hb.2
  | outside =>
    rw [hc] at hb
    exact absurd hb.1 (by simp [Ctl.inLoop])
  | returned r =>
    rw [hc] at hb
    exact absurd hb.1 (by simp [Ctl.inLoop])

omit [DecidableEq ι] in
/-- A waiting master waits for a queued check or for the batch of a worker. -/
theorem master_waits_for {s : Pool T ι} (hl : Ledger s) (ha : Awake s)
    (hm : s.ctl none = .waiting) :
    s.q.queue ≠ [] ∨ ∃ w, 0 < (s.ctl (some w)).pending := by
  by_contra hno
  push Not at hno
  obtain ⟨hq, hp⟩ := hno
  have ht : total Ctl.pending s.ctl = 0 := by
    apply total_eq_zero
    intro i
    cases i with
    | none => rw [hm]; rfl
    | some w => exact Nat.le_zero.mp (hp w)
  apply ha.master hm
  rw [hl.nTodo_eq, outstanding, hq, ht]
  rfl

theorem busy_of_pending {c : Ctl T} (h : 0 < c.pending) : c.Busy := by
  cases c <;> simp_all [Ctl.pending, Ctl.Busy, Ctl.inLoop]

/-- **No lost wake-up.** No reachable state has a queue that is not empty while
every thread in `Loop` waits; none has a waiting master with nothing to wait
for; and while the master is in `Wait`, some thread in `Loop` has a step to take
that is not a wake-up. -/
theorem no_lost_wakeup (eval : T → Bool) (nBatchSize : UInt32) (s : Pool T ι)
    (hs : (pool eval nBatchSize).Reachable s) :
    ¬(s.q.queue ≠ [] ∧ (∃ t, (s.ctl t).inLoop = true) ∧
        ∀ t, (s.ctl t).inLoop = true → s.ctl t = .waiting) ∧
      ¬(s.ctl none = .waiting ∧ (s.q.nTodo = 0 ∨
        (s.q.queue = [] ∧ ∀ w, (s.ctl (some w)).pending = 0))) ∧
      ((s.ctl none).inLoop = true → ∃ t s', (s.ctl t).inLoop = true ∧
        (s.step eval (.lock t) = some s' ∨ s.step eval (.exec t) = some s')) := by
  have ha := awake_of_reachable hs
  have hl := ledger_of_reachable hs
  have hsettled := settled_of_reachable hs
  refine ⟨?_, ?_, ?_⟩
  · rintro ⟨hq, ⟨t, ht⟩, hall⟩
    obtain ⟨t', hb⟩ := ha.workers hq ⟨t, hall t ht⟩
    exact hb.2 (hall t' hb.1)
  · rintro ⟨hm, hz | ⟨hq, hp⟩⟩
    · exact ha.master hm hz
    · rcases master_waits_for hl ha hm with h | ⟨w, hw⟩
      · exact h hq
      · have := hp w
        omega
  · intro hin
    obtain ⟨t, hb⟩ : ∃ t, (s.ctl t).Busy := by
      by_cases hm : s.ctl none = .waiting
      · rcases master_waits_for hl ha hm with h | ⟨w, hw⟩
        · exact ha.workers h ⟨none, hm⟩
        · exact ⟨some w, busy_of_pending hw⟩
      · exact ⟨none, hin, hm⟩
    obtain ⟨s', h'⟩ := busy_enabled eval hsettled hb
    exact ⟨t, s', hb.1, h'⟩

/-- The master waits while the only worker holds the only check. -/
theorem no_lost_wakeup_sleeping_master :
    ∃ s : Pool Bool (Fin 1), s.ctl none = .waiting ∧
      (¬(s.q.queue ≠ [] ∧ (∃ t, (s.ctl t).inLoop = true) ∧
          ∀ t, (s.ctl t).inLoop = true → s.ctl t = .waiting) ∧
        ¬(s.ctl none = .waiting ∧ (s.q.nTodo = 0 ∨
          (s.q.queue = [] ∧ ∀ w, (s.ctl (some w)).pending = 0))) ∧
        ((s.ctl none).inLoop = true → ∃ t s', (s.ctl t).inLoop = true ∧
          (s.step id (.lock t) = some s' ∨ s.step id (.exec t) = some s'))) := by
  have h : ((pool (ι := Fin 1) id 128).run (pool id 128).init
      [.enter (some 0), .lock (some 0), .add [true] (some 0), .lock (some 0), .enter none,
        .lock none]).map (fun s => decide (s.ctl none = .waiting)) = some true := by decide
  obtain ⟨s, hs, hm⟩ := Machine.reachable_of_run h
  exact ⟨s, of_decide_eq_true hm, no_lost_wakeup id 128 s hs⟩

end LearnFramework.CheckQueue
