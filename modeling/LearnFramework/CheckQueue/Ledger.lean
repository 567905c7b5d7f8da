import LearnFramework.CheckQueue.Pool

/-!
# The ledger of the pool

`nTodo` is, modulo 2^32, the number of checks that are queued or in a batch not
yet reported (`Ledger.nTodo_eq`), whatever the schedule and the number of
threads are. The proof follows one thread through its critical section: taking
the mutex (`Acquire`) moves a reported batch out of the ledger, and the rest of
the section (`Pass`) moves a batch from the queue to the thread.
-/

namespace LearnFramework.CheckQueue

open Machines Families

variable {T ι : Type*}

namespace Ctl

@[simp] theorem wake_pending (c : Ctl T) : c.wake.pending = c.pending := by cases c <;> rfl

@[simp] theorem wake_todo (c : Ctl T) : c.wake.todo = c.todo := by cases c <;> rfl

@[simp] theorem wake_flag (c : Ctl T) : c.wake.flag = c.flag := by cases c <;> rfl

theorem wake_ne_waiting (c : Ctl T) : c.wake ≠ .waiting := by cases c <;> simp [wake]

end Ctl

namespace Pool

section

variable [DecidableEq ι]

/-- A property of the control points survives the move of one thread. -/
theorem forall_goto {P : Option ι → Ctl T → Prop} {s : Pool T ι} {t : Option ι} {c : Ctl T}
    (h : ∀ i, i ≠ t → P i (s.ctl i)) (hc : P t c) (i : Option ι) : P i ((s.goto t c).ctl i) := by
  by_cases hi : i = t
  · subst i
    rw [goto_ctl_self]
    exact hc
  · rw [goto_ctl_of_ne s c hi]
    exact h i hi

/-- `Add` changes the control points by waking some threads. -/
theorem Notify.ctl {s s' : Pool T ι} {vChecks : List T} (h : Notify s vChecks s')
    (i : Option ι) : s'.ctl i = s.ctl i ∨ s'.ctl i = (s.ctl i).wake := by
  cases h with
  | nothing h => exact Or.inl rfl
  | one w h hw =>
    refine forall_goto (P := fun i c => c = s.ctl i ∨ c = (s.ctl i).wake)
      (fun i _ => Or.inl rfl) ?_ i
    rw [hw]
    exact Or.inr rfl
  | nobody h hw => exact Or.inl rfl
  | all h =>
    cases i with
    | none => exact Or.inl rfl
    | some w => exact Or.inr rfl

theorem Notify.master {s s' : Pool T ι} {vChecks : List T} (h : Notify s vChecks s') :
    s'.ctl none = s.ctl none := by
  cases h with
  | one w h hw => exact goto_ctl_of_ne s _ (by simp)
  | _ => rfl

theorem Acquire.testing {s s' : Pool T ι} {t : Option ι} (h : Acquire s t s') :
    s'.ctl t = .testing := by
  cases h <;> exact goto_ctl_self ..

theorem notifyMaster_ctl (s : Pool T ι) (i : Option ι) :
    s.notifyMaster.ctl i = s.ctl i ∨ s.notifyMaster.ctl i = (s.ctl i).wake :=
  forall_goto (P := fun i c => c = s.ctl i ∨ c = (s.ctl i).wake)
    (fun _ _ => Or.inl rfl) (Or.inr rfl) i

variable [Fintype ι] {M : Type*} [AddCommMonoid M] {w : Ctl T → M}

theorem total_goto (w : Ctl T → M) (s : Pool T ι) (t : Option ι) (c : Ctl T) :
    total w (s.goto t c).ctl + w (s.ctl t) = total w s.ctl + w c := total_update ..

end

variable [Fintype ι]

/-- A weight that does not tell a waiting thread from a woken one ignores notifications. -/
theorem total_of_wake {M : Type*} [AddCommMonoid M] {w : Ctl T → M}
    (hw : ∀ c : Ctl T, w c.wake = w c) {f g : Option ι → Ctl T}
    (h : ∀ i, g i = f i ∨ g i = (f i).wake) : total w g = total w f := by
  apply total_congr
  intro i
  rcases h i with hi | hi
  · rw [hi]
  · rw [hi, hw]

/-- The checks that are queued or in a batch not yet reported. -/
def outstanding (s : Pool T ι) : Nat := s.q.queue.length + total Ctl.pending s.ctl

end Pool

/-- The local shape of a control point: the rest of a batch is no longer than
the batch, a batch is not empty, and only the master returns. -/
def LocalOk : Option ι → Ctl T → Prop
  | _, .working vChecks n _ => vChecks.length ≤ n.toNat ∧ n ≠ 0
  | some _, .returned _ => False
  | _, _ => True

theorem LocalOk.wake {i : Option ι} {c : Ctl T} (h : LocalOk i c) : LocalOk i c.wake := by
  cases c <;> exact h

variable [Fintype ι]

/-- **The ledger.** It holds between critical sections and, for the thread that
has just taken the mutex, inside one. -/
structure Ledger (s : Pool T ι) : Prop where
  nTodo_eq : s.q.nTodo = UInt32.ofNat s.outstanding
  fQuit_eq : s.q.fQuit = false
  localOk : ∀ i, LocalOk i (s.ctl i)

namespace Ledger

open Pool

/-- Notifications do not touch the ledger. -/
theorem wake {s : Pool T ι} (h : Ledger s) {ctl : Option ι → Ctl T}
    (hc : ∀ i, ctl i = s.ctl i ∨ ctl i = (s.ctl i).wake) : Ledger ⟨s.q, ctl, s.session⟩ := by
  have ht : total Ctl.pending ctl = total Ctl.pending s.ctl := total_of_wake Ctl.wake_pending hc
  refine ⟨?_, h.fQuit_eq, fun i => ?_⟩
  · simp only [outstanding, ht]
    exact h.nTodo_eq
  · rcases hc i with hi | hi
    · show LocalOk i (ctl i)
      rw [hi]
      exact h.localOk i
    · show LocalOk i (ctl i)
      rw [hi]
      exact (h.localOk i).wake

theorem add {s : Pool T ι} (h : Ledger s) (vChecks : List T) (session : Session T) :
    Ledger ⟨s.q.add vChecks, s.ctl, session⟩ := by
  refine ⟨?_, h.fQuit_eq, h.localOk⟩
  simp only [outstanding, CCheckQueue.add_nTodo, CCheckQueue.add_queue, List.length_append,
    h.nTodo_eq, ← UInt32.ofNat_add]
  congr 1
  omega

end Ledger

variable [DecidableEq ι]

private theorem ofNat_sub_toNat {a b : Nat} {n : UInt32} (h : b + n.toNat = a) :
    UInt32.ofNat a - n = UInt32.ofNat b := by
  rw [← h, UInt32.ofNat_add, UInt32.ofNat_toNat, UInt32.add_sub_cancel]

namespace Ledger

open Pool

/-- One thread moves, and neither the queue nor its batch changes size. -/
theorem move {s : Pool T ι} (h : Ledger s) {q : CCheckQueue T} {session : Session T}
    {t : Option ι} {c : Ctl T} (hq : q.queue = s.q.queue) (hn : q.nTodo = s.q.nTodo)
    (hf : q.fQuit = s.q.fQuit) (hp : c.pending = (s.ctl t).pending) (hl : LocalOk t c) :
    Ledger (Pool.goto ⟨q, s.ctl, session⟩ t c) := by
  have ht : total Ctl.pending (Pool.goto ⟨q, s.ctl, session⟩ t c).ctl =
      total Ctl.pending s.ctl := total_update_of_eq hp
  refine ⟨?_, ?_, forall_goto (fun i _ => h.localOk i) hl⟩
  · simp only [outstanding, ht, goto_q, hq, hn]
    exact h.nTodo_eq
  · simp only [goto_q, hf]
    exact h.fQuit_eq

/-- The clean-up takes a reported batch out of the ledger. -/
theorem report {s : Pool T ι} (h : Ledger s) {t : Option ι} {n : UInt32} {fOk : Bool}
    (hc : s.ctl t = .top n fOk) :
    Ledger (Pool.goto { s with q := s.q.cleanUp n fOk } t .testing) := by
  have ht := total_goto Ctl.pending s t .testing
  rw [hc] at ht
  refine ⟨?_, by simpa using h.fQuit_eq, forall_goto (fun i _ => h.localOk i) ?_⟩
  · simp only [goto_q, CCheckQueue.cleanUp_nTodo, h.nTodo_eq]
    apply ofNat_sub_toNat
    simp only [outstanding, goto_q, CCheckQueue.cleanUp_queue]
    change _ + total Ctl.pending (s.goto t .testing).ctl + n.toNat = _
    simp only [Ctl.pending] at ht
    omega
  · cases t <;> trivial

theorem acquire {s s' : Pool T ι} {t : Option ι} (h : Ledger s) (ha : Acquire s t s') :
    Ledger s' := by
  cases ha with
  | first fOk hc => exact h.move rfl rfl rfl (by rw [hc]; rfl) (by cases t <;> trivial)
  | report n fOk hc hn hw => exact h.report hc
  | reportLast n fOk w hc hn hw hz =>
    subst hw
    have hc' : s.notifyMaster.ctl (some w) = .top n fOk :=
      (goto_ctl_of_ne s _ (by simp)).trans hc
    exact (h.wake s.notifyMaster_ctl).report hc'
  | rewoken hc => exact h.move rfl rfl rfl (by rw [hc]; rfl) (by cases t <;> trivial)

theorem pass {s s' : Pool T ι} {t : Option ι} (h : Ledger s) (hc : s.ctl t = .testing)
    (hp : Pass s t s') : Ledger s' := by
  cases hp with
  | finish he hf hz =>
    refine h.move rfl rfl rfl (by rw [hc]; rfl) ?_
    rcases hf with rfl | hf
    · trivial
    · rw [h.fQuit_eq] at hf
      cases hf
  | wait he hw => exact h.move rfl rfl rfl (by rw [hc]; rfl) (by cases t <;> trivial)
  | take rest batch hne hq hlen =>
    have ht := total_goto Ctl.pending s t (.working batch s.q.nNow s.q.fAllOk)
    rw [hc] at ht
    refine ⟨?_, h.fQuit_eq, forall_goto (fun i _ => h.localOk i) ?_⟩
    · have hout : s.outstanding =
          rest.length + total Ctl.pending (s.goto t (.working batch s.q.nNow s.q.fAllOk)).ctl := by
        simp only [outstanding, hq, List.length_append, List.length_reverse, hlen]
        simp only [Ctl.pending] at ht
        omega
      change s.q.nTodo = UInt32.ofNat (_ + total Ctl.pending (s.goto t _).ctl)
      rw [h.nTodo_eq, hout]
      rfl
    · exact ⟨hlen.le, s.q.nNow_ne_zero⟩

/-- One step keeps the ledger. -/
theorem step {eval : T → Bool} {s s' : Pool T ι} {a : Act T ι} (h : Ledger s)
    (hs : Step eval s a s') : Ledger s' := by
  cases hs with
  | enter t hc => exact h.move rfl rfl rfl (by rw [hc]; rfl) (by cases t <;> trivial)
  | lock t s₁ _ ha hp => exact (h.acquire ha).pass ha.testing hp
  | wake t hc => exact h.move rfl rfl rfl (by rw [hc]; rfl) (by cases t <;> trivial)
  | check t c rest n hc =>
    have hl := h.localOk t
    rw [hc] at hl
    exact h.move rfl rfl rfl (by rw [hc]; rfl) ⟨Nat.le_of_succ_le hl.1, hl.2⟩
  | skip t c rest n hc =>
    have hl := h.localOk t
    rw [hc] at hl
    exact h.move rfl rfl rfl (by rw [hc]; rfl) ⟨Nat.le_of_succ_le hl.1, hl.2⟩
  | clear t n fOk hc => exact h.move rfl rfl rfl (by rw [hc]; rfl) (by cases t <;> trivial)
  | add vChecks pick s₁ hc hn => exact (h.wake hn.ctl).add vChecks _
  | leave r hc => exact h.move rfl rfl rfl (by rw [hc]; rfl) trivial

end Ledger

/-- **The ledger holds in every reachable state.** -/
theorem ledger_of_reachable {eval : T → Bool} {nBatchSize : UInt32} {s : Pool T ι}
    (hs : (pool eval nBatchSize).Reachable s) : Ledger s := by
  refine hs.invariant ⟨?_, rfl, fun i => ?_⟩ fun s a t h ha => h.step (Pool.step_cases ha)
  · have ht : total Ctl.pending (fun _ : Option ι => (.outside : Ctl T)) = 0 :=
      total_eq_zero fun _ => rfl
    simp [pool, Pool.outstanding, CCheckQueue.new, ht]
  · cases i <;> trivial

end LearnFramework.CheckQueue
