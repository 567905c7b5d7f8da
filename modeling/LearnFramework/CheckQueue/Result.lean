import LearnFramework.CheckQueue.Ledger

/-!
# The result of the pool

The books of one session (`Accounts`): what was taken and what is still queued
is what was added, and the executed checks are taken ones. While all is well
(`AllOk`: `fAllOk` and every unreported `fOk`), no taken check was skipped and
every executed one succeeded; once it is not, some added check fails. `AllOk`
survives the hand-over of `fOk` to `fAllOk` in the clean-up and of `fAllOk` to
the master's result, so at the return of `Wait` it is the result.

The runs considered have fewer than 2^32 outstanding checks throughout
(`boundedPool`); then `nTodo == 0` means that nothing is outstanding (`Closed`).
-/

namespace LearnFramework.CheckQueue

open Machines Families Pool

variable {T ι : Type*}

/-- After the return of `Wait` nothing is outstanding and the status is reset. -/
def Closed (s : Pool T ι) : Prop :=
  ∀ r, s.ctl none = .returned r →
    s.q.queue = [] ∧ (∀ t, (s.ctl t).pending = 0) ∧ s.q.fAllOk = true

/-- No failure has been seen by any thread in this session. -/
def AllOk (s : Pool T ι) : Prop := s.q.fAllOk = true ∧ ∀ t, (s.ctl t).flag = true

theorem allOk_of_wake {s : Pool T ι} {q : CCheckQueue T} {ctl : Option ι → Ctl T}
    {session : Session T} (hf : q.fAllOk = s.q.fAllOk)
    (h : ∀ i, ctl i = s.ctl i ∨ ctl i = (s.ctl i).wake) :
    AllOk ⟨q, ctl, session⟩ ↔ AllOk s := by
  have hi : ∀ i, (ctl i).flag = (s.ctl i).flag := by
    intro i
    rcases h i with h | h
    · rw [h]
    · rw [h, Ctl.wake_flag]
  simp only [AllOk, hf, hi]

namespace Ctl

theorem toNat_ne_zero {n : UInt32} (hn : n ≠ 0) : n.toNat ≠ 0 :=
  fun h => hn (UInt32.toNat_inj.mp (by simpa using h))

theorem pending_top_ne_zero {n : UInt32} {fOk : Bool} (hn : n ≠ 0) :
    (.top n fOk : Ctl T).pending ≠ 0 := toNat_ne_zero hn

/-- A thread that holds no batch has none to execute and no failure to report. -/
theorem idle_of_pending {i : Option ι} {c : Ctl T} (hl : LocalOk i c) (hp : c.pending = 0) :
    c.todo = 0 ∧ ((∀ r, c ≠ .returned r) → c.flag = true) := by
  cases c with
  | top n fOk =>
    have hn : n = 0 := by
      by_contra hn
      exact toNat_ne_zero hn hp
    exact ⟨rfl, fun _ => by simp [flag, hn]⟩
  | working vChecks n fOk => exact absurd hp (toNat_ne_zero hl.2)
  | returned r => exact ⟨rfl, fun h => absurd rfl (h r)⟩
  | _ => exact ⟨rfl, fun _ => rfl⟩

end Ctl

section

variable [DecidableEq ι]

/-- A thread moves that holds the same batch before and after. -/
theorem Closed.move {s : Pool T ι} (h : Closed s) {q : CCheckQueue T} {session : Session T}
    {t : Option ι} {c : Ctl T} (hq : q.queue = s.q.queue) (hf : q.fAllOk = s.q.fAllOk)
    (hp : c.pending = (s.ctl t).pending) (hr : ∀ r, c ≠ .returned r) :
    Closed (Pool.goto ⟨q, s.ctl, session⟩ t c) := by
  intro r hc
  have hne : t ≠ none := by
    rintro rfl
    rw [goto_ctl_self] at hc
    exact hr r hc
  rw [goto_ctl_of_ne _ _ hne.symm] at hc
  obtain ⟨h1, h2, h3⟩ := h r hc
  refine ⟨hq.trans h1, ?_, hf.trans h3⟩
  exact forall_goto (P := fun _ c => c.pending = 0) (fun i _ => h2 i) (hp.trans (h2 t))

theorem Closed.acquire {s s' : Pool T ι} {t : Option ι} (h : Closed s) (ha : Acquire s t s') :
    Closed s' := by
  cases ha with
  | first fOk hc => exact h.move rfl rfl (by rw [hc]; rfl) (by simp)
  | report n fOk hc hn hw =>
    intro r hr
    by_cases ht : t = none
    · subst ht
      rw [goto_ctl_self] at hr
      cases hr
    · rw [goto_ctl_of_ne _ _ (Ne.symm ht)] at hr
      -- A returned master leaves no batch to report.
      have hp := (h r hr).2.1 t
      rw [hc] at hp
      exact absurd hp (Ctl.pending_top_ne_zero hn)
  | reportLast n fOk w hc hn hw hz =>
    subst hw
    intro r hr
    rw [goto_ctl_of_ne _ _ (by simp), notifyMaster, goto_ctl_self] at hr
    have hr' : s.ctl none = .returned r := by
      cases hm : s.ctl none <;> simp_all [Ctl.wake]
    have hp := (h r hr').2.1 (some w)
    rw [hc] at hp
    exact absurd hp (Ctl.pending_top_ne_zero hn)
  | rewoken hc => exact h.move rfl rfl (by rw [hc]; rfl) (by simp)

theorem allOk_goto {q : CCheckQueue T} {ctl : Option ι → Ctl T} {session : Session T}
    {t : Option ι} {c : Ctl T} :
    AllOk (Pool.goto ⟨q, ctl, session⟩ t c) ↔
      (q.fAllOk && c.flag) = true ∧ ∀ i, i ≠ t → (ctl i).flag = true := by
  constructor
  · rintro ⟨hf, h⟩
    refine ⟨?_, fun i hi => ?_⟩
    · have := h t
      rw [goto_ctl_self] at this
      rw [this, Bool.and_true]
      exact hf
    · have := h i
      rwa [goto_ctl_of_ne _ _ hi] at this
  · rintro ⟨hf, h⟩
    rw [Bool.and_eq_true] at hf
    exact ⟨hf.1, forall_goto (P := fun _ c => c.flag = true) h hf.2⟩

theorem allOk_iff {s : Pool T ι} (t : Option ι) :
    AllOk s ↔ (s.q.fAllOk && (s.ctl t).flag) = true ∧ ∀ i, i ≠ t → (s.ctl i).flag = true := by
  have h : AllOk (Pool.goto ⟨s.q, s.ctl, s.session⟩ t (s.ctl t)) ↔
      (s.q.fAllOk && (s.ctl t).flag) = true ∧ ∀ i, i ≠ t → (s.ctl i).flag = true := allOk_goto
  rw [← h]
  unfold Pool.goto
  rw [Function.update_eq_self]

/-- `AllOk` sees the conjunction of `fAllOk` and the flag of the moving thread. -/
theorem allOk_goto_iff {s : Pool T ι} {q : CCheckQueue T} {session : Session T}
    {t : Option ι} {c : Ctl T} (h : (q.fAllOk && c.flag) = (s.q.fAllOk && (s.ctl t).flag)) :
    AllOk (Pool.goto ⟨q, s.ctl, session⟩ t c) ↔ AllOk s := by
  rw [allOk_goto, allOk_iff t, h]

end

variable [Fintype ι]

/-- Fewer than 2^32 checks are outstanding. -/
def Pool.bounded (s : Pool T ι) : Bool := s.outstanding < 2 ^ 32

theorem outstanding_eq_zero {s : Pool T ι} (hl : Ledger s) (hb : s.bounded = true)
    (hz : s.q.nTodo = 0) : s.outstanding = 0 := by
  have hlt : s.outstanding < 2 ^ 32 := by simpa [Pool.bounded] using hb
  have hn := congrArg UInt32.toNat (hl.nTodo_eq.symm.trans hz)
  rw [UInt32.toNat_ofNat_of_lt' hlt] at hn
  exact hn

theorem pending_eq_zero {s : Pool T ι} (h : s.outstanding = 0) :
    s.q.queue = [] ∧ ∀ t, (s.ctl t).pending = 0 := by
  have hsum : total Ctl.pending s.ctl = 0 := by
    unfold outstanding at h
    omega
  refine ⟨List.length_eq_zero_iff.mp (by unfold outstanding at h; omega), fun t => ?_⟩
  exact (Finset.sum_eq_zero_iff.mp hsum) t (Finset.mem_univ t)

structure Accounts (eval : T → Bool) (s : Pool T ι) : Prop where
  taken_add_queue : s.session.taken + (s.q.queue : Multiset T) = s.session.added
  executed_le : s.session.executed + total Ctl.todo s.ctl ≤ s.session.taken
  executed_eq : AllOk s → s.session.executed + total Ctl.todo s.ctl = s.session.taken
  executed_ok : AllOk s → ∀ c ∈ s.session.executed, eval c = true
  added_bad : ¬AllOk s → ∃ c ∈ s.session.added, eval c = false

namespace Accounts

variable {eval : T → Bool}

/-- Notifications do not touch the books. -/
theorem wake {s : Pool T ι} (h : Accounts eval s) {ctl : Option ι → Ctl T}
    (hc : ∀ i, ctl i = s.ctl i ∨ ctl i = (s.ctl i).wake) :
    Accounts eval ⟨s.q, ctl, s.session⟩ := by
  have htot : total Ctl.todo ctl = total Ctl.todo s.ctl := total_of_wake Ctl.wake_todo hc
  have hok : AllOk ⟨s.q, ctl, s.session⟩ ↔ AllOk s := allOk_of_wake rfl hc
  exact ⟨h.taken_add_queue, htot ▸ h.executed_le, fun ha => htot ▸ h.executed_eq (hok.mp ha),
    fun ha => h.executed_ok (hok.mp ha), fun ha => h.added_bad (mt hok.mpr ha)⟩

theorem add {s : Pool T ι} (h : Accounts eval s) (vChecks : List T) :
    Accounts eval { s with
      q := s.q.add vChecks
      session := { s.session with added := s.session.added + (vChecks : Multiset T) } } := by
  refine ⟨?_, h.executed_le, h.executed_eq, h.executed_ok, fun ha => ?_⟩
  · change s.session.taken + ((s.q.add vChecks).queue : Multiset T) = s.session.added + vChecks
    rw [CCheckQueue.add_queue, ← Multiset.coe_add, ← add_assoc, h.taken_add_queue]
  · obtain ⟨c, hm, hc⟩ := h.added_bad ha
    exact ⟨c, Multiset.mem_add.mpr (Or.inl hm), hc⟩

end Accounts

variable [DecidableEq ι]

/-- The pool on runs with fewer than 2^32 outstanding checks. -/
def boundedPool (eval : T → Bool) (nBatchSize : UInt32) : Machine (Pool T ι) (Act T ι) :=
  (pool eval nBatchSize).guarded fun _ _ s => s.bounded

namespace Closed

theorem pass {s s' : Pool T ι} {t : Option ι} (h : Closed s) (hc : s.ctl t = .testing)
    (hp : Pass s t s') (hl : Ledger s') (hb : s'.bounded = true) : Closed s' := by
  cases hp with
  | finish he hf hz =>
    obtain ⟨hq, hpend⟩ := pending_eq_zero (outstanding_eq_zero hl hb hz)
    intro r hr
    refine ⟨hq, hpend, ?_⟩
    cases t with
    | none => rfl
    | some w => exact absurd (hl.localOk (some w)) (by rw [goto_ctl_self]; exact not_false)
  | wait he hw => exact h.move rfl rfl (by rw [hc]; rfl) (by simp)
  | take rest batch hne hq hlen =>
    intro r hr
    by_cases ht : t = none
    · subst ht
      rw [goto_ctl_self] at hr
      cases hr
    · rw [goto_ctl_of_ne _ _ (Ne.symm ht)] at hr
      exact absurd (h r hr).1 hne

theorem step {eval : T → Bool} {s s' : Pool T ι} {a : Act T ι} (h : Closed s)
    (hs : Step eval s a s') (hl : Ledger s') (hb : s'.bounded = true) : Closed s' := by
  cases hs with
  | lock t s₁ _ ha hp => exact (h.acquire ha).pass ha.testing hp hl hb
  | add vChecks pick s₁ hc hn =>
    intro r hr
    exact absurd (hn.master.symm.trans hr) (by rw [hc]; simp)
  | leave r hc => exact fun r' hr => absurd hr (by rw [goto_ctl_self]; simp)
  | enter t hc => exact h.move rfl rfl (by rw [hc]; rfl) (by simp)
  | wake t hc => exact h.move rfl rfl (by rw [hc]; rfl) (by simp)
  | check t c rest n hc => exact h.move rfl rfl (by rw [hc]; rfl) (by simp)
  | skip t c rest n hc => exact h.move rfl rfl (by rw [hc]; rfl) (by simp)
  | clear t n fOk hc => exact h.move rfl rfl (by rw [hc]; rfl) (by simp)

end Closed

namespace Accounts

variable {eval : T → Bool}

/-- One thread moves; the session, the queue and its batch stay. -/
theorem move {s : Pool T ι} (h : Accounts eval s) {q : CCheckQueue T} {t : Option ι} {c : Ctl T}
    (hq : q.queue = s.q.queue) (ht : c.todo = (s.ctl t).todo)
    (hf : (q.fAllOk && c.flag) = (s.q.fAllOk && (s.ctl t).flag)) :
    Accounts eval (Pool.goto ⟨q, s.ctl, s.session⟩ t c) := by
  have htot : total Ctl.todo (Pool.goto ⟨q, s.ctl, s.session⟩ t c).ctl = total Ctl.todo s.ctl :=
    total_update_of_eq ht
  constructor
  · rw [goto_q, hq]
    exact h.taken_add_queue
  · rw [htot]
    exact h.executed_le
  · rw [htot, allOk_goto_iff hf]
    exact h.executed_eq
  · rw [allOk_goto_iff hf]
    exact h.executed_ok
  · rw [allOk_goto_iff hf]
    exact h.added_bad

theorem acquire {s s' : Pool T ι} {t : Option ι} (h : Accounts eval s) (ha : Acquire s t s') :
    Accounts eval s' := by
  cases ha with
  | first fOk hc => exact h.move rfl (by rw [hc]; rfl) (by rw [hc]; simp [Ctl.flag])
  | report n fOk hc hn hw =>
    exact h.move (by simp) (by rw [hc]; rfl)
      (by rw [hc]; simp [Ctl.flag, CCheckQueue.cleanUp_fAllOk])
  | reportLast n fOk w hc hn hw hz =>
    subst hw
    have hc' : s.notifyMaster.ctl (some w) = .top n fOk :=
      (goto_ctl_of_ne s _ (by simp)).trans hc
    exact (h.wake s.notifyMaster_ctl).move (by simp) (by rw [hc']; rfl)
      (by rw [hc']; simp [Ctl.flag, CCheckQueue.cleanUp_fAllOk])
  | rewoken hc => exact h.move rfl (by rw [hc]; rfl) (by rw [hc]; rfl)

theorem pass {s s' : Pool T ι} {t : Option ι} (h : Accounts eval s) (hc : s.ctl t = .testing)
    (hp : Pass s t s') (hl : Ledger s') : Accounts eval s' := by
  cases hp with
  | finish he hf hz =>
    cases t with
    | none => exact h.move rfl (by rw [hc]; rfl) (by rw [hc]; simp [Ctl.flag])
    | some w => exact absurd (hl.localOk (some w)) (by rw [goto_ctl_self]; exact not_false)
  | wait he hw => exact h.move rfl (by rw [hc]; rfl) (by rw [hc]; rfl)
  | take rest batch hne hq hlen =>
    have htot := total_goto Ctl.todo s t (.working batch s.q.nNow s.q.fAllOk)
    rw [hc] at htot
    have htodo : total Ctl.todo (s.goto t (.working batch s.q.nNow s.q.fAllOk)).ctl =
        total Ctl.todo s.ctl + (batch : Multiset T) := by
      simpa [Ctl.todo] using htot
    have hok : AllOk (Pool.goto { s with
        q := { s.q with queue := rest }
        session := { s.session with taken := s.session.taken + batch } } t
          (.working batch s.q.nNow s.q.fAllOk)) ↔ AllOk s := by
      refine allOk_goto_iff ?_
      rw [hc]
      simp [Ctl.flag]
    refine ⟨?_, ?_, fun ha => ?_, fun ha => ?_, fun ha => ?_⟩
    · change s.session.taken + batch + (rest : Multiset T) = s.session.added
      rw [← h.taken_add_queue, hq, ← Multiset.coe_add, Multiset.coe_reverse]
      ac_rfl
    · change s.session.executed + total Ctl.todo (s.goto t _).ctl ≤ s.session.taken + batch
      rw [htodo, ← add_assoc]
      exact add_le_add_left h.executed_le _
    · have he := h.executed_eq (hok.mp ha)
      change s.session.executed + total Ctl.todo (s.goto t _).ctl = s.session.taken + batch
      rw [htodo, ← add_assoc, he]
    · exact h.executed_ok (hok.mp ha)
    · exact h.added_bad (mt hok.mpr ha)

/-- The execution of one check, inside its batch. -/
theorem check {s : Pool T ι} (h : Accounts eval s) {t : Option ι} {c : T} {rest : List T}
    {n : UInt32} (hc : s.ctl t = .working (c :: rest) n true) :
    Accounts eval (Pool.goto { s with
      session := { s.session with executed := c ::ₘ s.session.executed } } t
        (.working rest n (eval c))) := by
  have htot := total_goto Ctl.todo s t (.working rest n (eval c))
  have htodo : c ::ₘ total Ctl.todo (s.goto t (.working rest n (eval c))).ctl =
      total Ctl.todo s.ctl := by
    rw [hc] at htot
    simp only [Ctl.todo, ← Multiset.cons_coe] at htot
    rw [Multiset.add_cons, ← Multiset.cons_add] at htot
    exact add_right_cancel htot
  have hsum : c ::ₘ s.session.executed +
      total Ctl.todo (s.goto t (.working rest n (eval c))).ctl =
        s.session.executed + total Ctl.todo s.ctl := by
    rw [Multiset.cons_add, ← Multiset.add_cons, htodo]
  have hmem : c ∈ s.session.added := by
    have hin : c ∈ s.session.executed + total Ctl.todo s.ctl := by
      rw [← hsum]
      simp
    rw [← h.taken_add_queue]
    exact Multiset.mem_add.mpr (Or.inl (Multiset.mem_of_le h.executed_le hin))
  -- Before the check the flag of the thread was true.
  have hok : ∀ session, AllOk (Pool.goto ⟨s.q, s.ctl, session⟩ t (.working rest n (eval c))) ↔
      AllOk s ∧ eval c = true := by
    intro session
    rw [allOk_goto, allOk_iff t, hc]
    simp only [Ctl.flag, Bool.and_true, Bool.and_eq_true]
    tauto
  refine ⟨h.taken_add_queue, ?_, fun ha => ?_, fun ha => ?_, fun ha => ?_⟩
  · change c ::ₘ s.session.executed + total Ctl.todo (s.goto t _).ctl ≤ _
    rw [hsum]
    exact h.executed_le
  · have he := h.executed_eq ((hok _).mp ha).1
    change c ::ₘ s.session.executed + total Ctl.todo (s.goto t _).ctl = _
    rw [hsum, he]
    rfl
  · obtain ⟨hs, hv⟩ := (hok _).mp ha
    intro d hd
    rcases Multiset.mem_cons.mp hd with rfl | hd
    · exact hv
    · exact h.executed_ok hs d hd
  · by_cases hs : AllOk s
    · refine ⟨c, hmem, ?_⟩
      by_contra hv
      exact ha ((hok _).mpr ⟨hs, by simpa using hv⟩)
    · exact h.added_bad hs

/-- A check that is skipped: a failure is known already. -/
theorem skip {s : Pool T ι} (h : Accounts eval s) {t : Option ι} {c : T} {rest : List T}
    {n : UInt32} (hc : s.ctl t = .working (c :: rest) n false) :
    Accounts eval (s.goto t (.working rest n false)) := by
  have hle : total Ctl.todo (s.goto t (.working rest n false)).ctl ≤ total Ctl.todo s.ctl := by
    have htot := total_goto Ctl.todo s t (.working rest n false)
    rw [hc] at htot
    simp only [Ctl.todo, ← Multiset.cons_coe] at htot
    rw [Multiset.add_cons, ← Multiset.cons_add] at htot
    rw [← add_right_cancel htot]
    exact Multiset.le_cons_self _ _
  have hbad : ¬AllOk s := fun ha => by
    have := ha.2 t
    rw [hc] at this
    cases this
  have hbad' : ¬AllOk (s.goto t (.working rest n false)) := fun ha => by
    have := ha.2 t
    rw [goto_ctl_self] at this
    cases this
  exact ⟨h.taken_add_queue, (add_le_add_right hle _).trans h.executed_le,
    fun ha => absurd ha hbad', fun ha => absurd ha hbad', fun _ => h.added_bad hbad⟩

/-- A new session starts with empty books. -/
theorem leave {s : Pool T ι} {r : Bool} (hl : Ledger s) (hcl : Closed s)
    (hc : s.ctl none = .returned r) :
    Accounts eval (Pool.goto { s with session := .empty } none .outside) := by
  obtain ⟨hq, hp, hf⟩ := hcl r hc
  have htodo : total Ctl.todo (s.goto none .outside).ctl = 0 := by
    refine total_eq_zero (forall_goto (P := fun _ c => c.todo = 0) (fun i _ => ?_) rfl)
    exact (Ctl.idle_of_pending (hl.localOk i) (hp i)).1
  have hok : AllOk (Pool.goto { s with session := .empty } none .outside) := by
    refine ⟨hf, forall_goto (P := fun _ c => c.flag = true) (fun i hi => ?_) rfl⟩
    refine (Ctl.idle_of_pending (hl.localOk i) (hp i)).2 fun r' hr => ?_
    have hlo := hl.localOk i
    cases i with
    | none => exact hi rfl
    | some w => rw [hr] at hlo; exact hlo
  have hzero : (0 : Multiset T) + total Ctl.todo (s.goto none .outside).ctl = 0 := by
    rw [htodo, add_zero]
  refine ⟨?_, hzero.le, fun _ => hzero, fun _ c hm => ?_, fun ha => absurd hok ha⟩
  · change (0 : Multiset T) + (s.q.queue : Multiset T) = 0
    rw [hq]
    rfl
  · exact absurd hm (Multiset.notMem_zero c)

/-- One step keeps the books. -/
theorem step {s s' : Pool T ι} {a : Act T ι} (h : Accounts eval s) (hs : Step eval s a s')
    (hl : Ledger s) (hl' : Ledger s') (hcl : Closed s) : Accounts eval s' := by
  cases hs with
  | enter t hc => exact h.move rfl (by rw [hc]; rfl) (by rw [hc]; rfl)
  | lock t s₁ _ ha hp => exact (h.acquire ha).pass ha.testing hp hl'
  | wake t hc => exact h.move rfl (by rw [hc]; rfl) (by rw [hc]; rfl)
  | check t c rest n hc => exact h.check hc
  | skip t c rest n hc => exact h.skip hc
  | clear t n fOk hc =>
    have hn : (n == 0) = false := by
      have hlo := hl.localOk t
      rw [hc] at hlo
      simpa using hlo.2
    exact h.move rfl (by rw [hc]; rfl) (by rw [hc]; simp [Ctl.flag, hn])
  | add vChecks pick s₁ hc hn =>
    cases hn with
    | nothing h0 => exact h.add vChecks
    | one w h1 hw =>
      exact (h.move rfl (by rw [hw]; rfl) (by rw [hw]; rfl)).add vChecks
    | nobody h1 hw => exact h.add vChecks
    | all h1 => exact (h.wake (Notify.all h1).ctl).add vChecks
  | leave r hc => exact leave hl hcl hc

end Accounts

/-! ## Batches belong to the session -/

/-- The batches not yet reported were taken in this session. -/
def Counted (s : Pool T ι) : Prop := total Ctl.pending s.ctl ≤ s.session.taken.card

namespace Counted

theorem move {s : Pool T ι} (h : Counted s) {q : CCheckQueue T} {session : Session T}
    {t : Option ι} {c : Ctl T} (hp : c.pending ≤ (s.ctl t).pending)
    (ht : session.taken = s.session.taken) : Counted (Pool.goto ⟨q, s.ctl, session⟩ t c) := by
  have htot := total_goto Ctl.pending s t c
  change total Ctl.pending (s.goto t c).ctl ≤ session.taken.card
  unfold Counted at h
  rw [ht]
  omega

theorem acquire {s s' : Pool T ι} {t : Option ι} (h : Counted s) (ha : Acquire s t s') :
    Counted s' := by
  cases ha with
  | first fOk hc => exact h.move (Nat.zero_le _) rfl
  | report n fOk hc hn hw => exact h.move (Nat.zero_le _) rfl
  | reportLast n fOk w hc hn hw hz =>
    have hm : Counted s.notifyMaster :=
      (total_of_wake Ctl.wake_pending s.notifyMaster_ctl).trans_le h
    exact hm.move (Nat.zero_le _) rfl
  | rewoken hc => exact h.move (Nat.zero_le _) rfl

theorem pass {s s' : Pool T ι} {t : Option ι} (h : Counted s) (hc : s.ctl t = .testing)
    (hp : Pass s t s') : Counted s' := by
  cases hp with
  | finish he hf hz => exact h.move (Nat.zero_le _) rfl
  | wait he hw => exact h.move (Nat.zero_le _) rfl
  | take rest batch hne hq hlen =>
    have htot := total_goto Ctl.pending s t (.working batch s.q.nNow s.q.fAllOk)
    rw [hc] at htot
    unfold Counted at h
    change total Ctl.pending (s.goto t _).ctl ≤
      (s.session.taken + (batch : Multiset T)).card
    simp only [Ctl.pending] at htot
    rw [Multiset.card_add, Multiset.coe_card, hlen]
    omega

theorem step {eval : T → Bool} {s s' : Pool T ι} {a : Act T ι} (h : Counted s)
    (hs : Step eval s a s') (hcl : Closed s) : Counted s' := by
  cases hs with
  | enter t hc => exact h.move (Nat.zero_le _) rfl
  | lock t s₁ _ ha hp => exact (h.acquire ha).pass ha.testing hp
  | wake t hc => exact h.move (Nat.zero_le _) rfl
  | check t c rest n hc => exact h.move (by rw [hc]; exact le_rfl) rfl
  | skip t c rest n hc => exact h.move (by rw [hc]; exact le_rfl) rfl
  | clear t n fOk hc => exact h.move (by rw [hc]; exact le_rfl) rfl
  | add vChecks pick s₁ hc hn => exact (total_of_wake Ctl.wake_pending hn.ctl).trans_le h
  | leave r hc =>
    have hp := (hcl r hc).2.1
    refine (total_eq_zero (forall_goto (P := fun _ c => c.pending = 0) ?_ rfl)).le
    exact fun i _ => hp i

end Counted

/-! ## Reachable states -/

variable {eval : T → Bool} {nBatchSize : UInt32}

theorem closed_of_reachable {s : Pool T ι} (hs : (boundedPool eval nBatchSize).Reachable s) :
    Closed s := by
  refine hs.invariant_of_reachable (fun r h => by cases h) fun s a t hr h ha => ?_
  obtain ⟨hst, hb⟩ := Machine.guarded_step.mp ha
  exact h.step (step_cases hst) (ledger_of_reachable (hr.step ha).of_guarded) hb

theorem accounts_of_reachable {s : Pool T ι} (hs : (boundedPool eval nBatchSize).Reachable s) :
    Accounts eval s := by
  have h0 : Accounts eval (boundedPool (ι := ι) eval nBatchSize).init := by
    have htodo : total Ctl.todo (fun _ : Option ι => (.outside : Ctl T)) = 0 :=
      total_eq_zero fun _ => rfl
    have hzero : (0 : Multiset T) + total Ctl.todo (fun _ : Option ι => .outside) = 0 := by
      rw [htodo, add_zero]
    have hok : AllOk (boundedPool (ι := ι) eval nBatchSize).init := ⟨rfl, fun _ => rfl⟩
    exact ⟨rfl, hzero.le, fun _ => hzero, fun _ c hm => absurd hm (Multiset.notMem_zero c),
      fun ha => absurd hok ha⟩
  refine hs.invariant_of_reachable h0 fun s a t hr h ha => ?_
  exact h.step (step_cases (Machine.guarded_step.mp ha).1) (ledger_of_reachable hr.of_guarded)
    (ledger_of_reachable (hr.step ha).of_guarded) (closed_of_reachable hr)

theorem counted_of_reachable {s : Pool T ι} (hs : (boundedPool eval nBatchSize).Reachable s) :
    Counted s := by
  refine hs.invariant_of_reachable ?_ fun s a t hr h ha => ?_
  · exact (total_eq_zero fun _ => rfl).le
  · exact h.step (step_cases (Machine.guarded_step.mp ha).1) (closed_of_reachable hr)

/-- Before any check is added nothing is outstanding. -/
theorem outstanding_of_added {s : Pool T ι} (hs : (boundedPool eval nBatchSize).Reachable s)
    (h : s.session.added = 0) : s.outstanding = 0 := by
  have hb := congrArg Multiset.card (accounts_of_reachable hs).taken_add_queue
  rw [h, Multiset.card_add, Multiset.coe_card, Multiset.card_zero] at hb
  have hc := counted_of_reachable hs
  unfold Counted at hc
  unfold outstanding
  omega

/-- When `Wait` has returned, no thread is left with checks to execute. -/
theorem todo_of_returned {s : Pool T ι} {r : Bool}
    (hs : (boundedPool eval nBatchSize).Reachable s) (hr : s.ctl none = .returned r) :
    total Ctl.todo s.ctl = 0 := by
  have hl := ledger_of_reachable hs.of_guarded
  have hp := (closed_of_reachable hs r hr).2.1
  exact total_eq_zero fun i => (Ctl.idle_of_pending (hl.localOk i) (hp i)).1

theorem taken_of_returned {s : Pool T ι} {r : Bool}
    (hs : (boundedPool eval nBatchSize).Reachable s) (hr : s.ctl none = .returned r) :
    s.session.taken = s.session.added := by
  have h := (accounts_of_reachable hs).taken_add_queue
  rw [(closed_of_reachable hs r hr).1] at h
  exact (add_zero _).symm.trans h

/-- At the return of `Wait`, `AllOk` is the result. -/
theorem allOk_of_returned {s : Pool T ι} {r : Bool}
    (hs : (boundedPool eval nBatchSize).Reachable s) (hr : s.ctl none = .returned r) :
    AllOk s ↔ r = true := by
  have hl := ledger_of_reachable hs.of_guarded
  obtain ⟨hq, hp, hf⟩ := closed_of_reachable hs r hr
  rw [allOk_iff none, hr, hf]
  refine ⟨fun h => by simpa [Ctl.flag] using h.1, fun h => ⟨by simp [Ctl.flag, h], ?_⟩⟩
  intro i hi
  refine (Ctl.idle_of_pending (hl.localOk i) (hp i)).2 fun r' hr' => ?_
  have hlo := hl.localOk i
  cases i with
  | none => exact hi rfl
  | some w =>
    rw [hr'] at hlo
    exact hlo

theorem executed_of_returned {s : Pool T ι}
    (hs : (boundedPool eval nBatchSize).Reachable s) (hr : s.ctl none = .returned true) :
    s.session.executed = s.session.added := by
  have he := (accounts_of_reachable hs).executed_eq ((allOk_of_returned hs hr).mpr rfl)
  rwa [todo_of_returned hs hr, add_zero, taken_of_returned hs hr] at he

theorem returned_true_iff {s : Pool T ι} {r : Bool}
    (hs : (boundedPool eval nBatchSize).Reachable s) (hr : s.ctl none = .returned r) :
    r = true ↔ ∀ c ∈ s.session.added, eval c = true := by
  have hb := accounts_of_reachable hs
  have hok := allOk_of_returned hs hr
  constructor
  · rintro rfl c hc
    rw [← executed_of_returned hs hr] at hc
    exact hb.executed_ok (hok.mpr rfl) c hc
  · intro h
    by_contra hn
    obtain ⟨c, hc, hv⟩ := hb.added_bad (mt hok.mp hn)
    rw [h c hc] at hv
    cases hv

/-- **The result of the pool.** When `Wait` returns `r`, `r` is true exactly when
every check added in the session evaluates to true, and then each was executed
once; in any case each was taken once, and executed at most once. -/
theorem wait_result (eval : T → Bool) (nBatchSize : UInt32) (s : Pool T ι) (r : Bool)
    (hs : (boundedPool eval nBatchSize).Reachable s) (hr : s.ctl none = .returned r) :
    (r = true ↔ ∀ c ∈ s.session.added, eval c = true) ∧
      (r = true → s.session.executed = s.session.added) ∧
      s.session.taken = s.session.added ∧ s.session.executed ≤ s.session.added := by
  have hle := (accounts_of_reachable hs).executed_le
  rw [todo_of_returned hs hr, add_zero, taken_of_returned hs hr] at hle
  refine ⟨returned_true_iff hs hr, ?_, taken_of_returned hs hr, hle⟩
  rintro rfl
  exact executed_of_returned hs hr

/-- One worker and the master share a batch of two, and the worker's check fails. -/
theorem wait_result_shared_batch :
    ∃ s : Pool Bool (Fin 1), s.ctl none = .returned false ∧
      ((false = true ↔ ∀ c ∈ s.session.added, id c = true) ∧
        (false = true → s.session.executed = s.session.added) ∧
        s.session.taken = s.session.added ∧ s.session.executed ≤ s.session.added) := by
  have h : ((boundedPool (ι := Fin 1) id 128).run (boundedPool id 128).init
      [.enter (some 0), .lock (some 0), .add [true, false] none, .enter none, .lock none,
        .lock (some 0), .exec none, .exec none, .exec (some 0), .exec (some 0), .lock none,
        .lock (some 0), .lock none]).map (fun s => decide (s.ctl none = .returned false)) =
      some true := by decide
  obtain ⟨s, hs, hr⟩ := Machine.reachable_of_run h
  have hr' : s.ctl none = .returned false := of_decide_eq_true hr
  exact ⟨s, hr', wait_result id 128 s false hs hr'⟩

end LearnFramework.CheckQueue
