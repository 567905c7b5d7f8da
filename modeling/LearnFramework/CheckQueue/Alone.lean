import LearnFramework.CheckQueue.Ledger
import Mathlib.Data.Fintype.BigOperators

/-!
# The master alone

`Wait` needs no worker: while every worker is still outside `Loop`, the master
empties the queue by itself and returns (`master_returns`). The induction is on
the length of the queue; each turn of the `do` loop takes at least one check.
-/

namespace LearnFramework.CheckQueue

open Machines Families Pool

variable {T ι : Type*}

/-- The steps of `Loop`; the others belong to the calls on the object. -/
def Act.inLoop : Act T ι → Bool
  | .enter t => t.isSome
  | .lock _ => true
  | .wake _ => true
  | .exec _ => true
  | .add _ _ => false
  | .leave => false

section

variable [DecidableEq ι] {eval : T → Bool} {s s' : Pool T ι} {a : Act T ι}

/-- The threads in `Loop` add nothing. -/
theorem Pool.Step.inLoop_added (h : Step eval s a s') (ha : a.inLoop = true) :
    s'.session.added = s.session.added := by
  cases h with
  | lock t s₁ _ hq hp =>
    have h₁ : s₁.session = s.session := by cases hq <;> rfl
    have h₂ : s'.session.added = s₁.session.added := by cases hp <;> rfl
    rw [h₂, h₁]
  | add vChecks pick s₁ hc hn => cases ha
  | leave r hc => cases ha
  | _ => rfl

/-- A master that is outside `Loop` stays there while other threads move. -/
theorem Pool.Step.inLoop_outside (h : Step eval s a s') (ha : a.inLoop = true)
    (hm : s.ctl none = .outside) : s'.ctl none = .outside := by
  have hne : ∀ {t : Option ι}, s.ctl t ≠ .outside → none ≠ t := by
    rintro t ht rfl
    exact ht hm
  have hgoto : ∀ {q : CCheckQueue T} {session : Session T} {t : Option ι} {c : Ctl T},
      s.ctl t ≠ .outside → (Pool.goto ⟨q, s.ctl, session⟩ t c).ctl none = .outside :=
    fun ht => (goto_ctl_of_ne _ _ (hne ht)).trans hm
  cases h with
  | enter t hc =>
    refine (goto_ctl_of_ne s _ ?_).trans hm
    rintro rfl
    cases ha
  | lock t s₁ _ hq hp =>
    obtain ⟨ht, hm₁⟩ : none ≠ t ∧ s₁.ctl none = .outside := by
      cases hq with
      | first fOk hc => exact ⟨hne (by simp [hc]), hgoto (by simp [hc])⟩
      | report n fOk hc hn hw => exact ⟨hne (by simp [hc]), hgoto (by simp [hc])⟩
      | reportLast n fOk w hc hn hw hz =>
        refine ⟨hne (by simp [hc]), (goto_ctl_of_ne _ _ (hne (by simp [hc]))).trans ?_⟩
        rw [notifyMaster, goto_ctl_self]
        change (s.ctl none).wake = _
        rw [hm]
        rfl
      | rewoken hc => exact ⟨hne (by simp [hc]), hgoto (by simp [hc])⟩
    cases hp <;> exact (goto_ctl_of_ne _ _ ht).trans hm₁
  | wake t hc => exact hgoto (by simp [hc])
  | check t c rest n hc => exact hgoto (by simp [hc])
  | skip t c rest n hc => exact hgoto (by simp [hc])
  | clear t n fOk hc => exact hgoto (by simp [hc])
  | add vChecks pick s₁ hc hn => cases ha
  | leave r hc => cases ha

end

/-- Every worker is still to enter `Loop`. -/
def WorkersOutside (s : Pool T ι) : Prop := ∀ w, s.ctl (some w) = .outside

theorem WorkersOutside.goto [DecidableEq ι] {s : Pool T ι} (h : WorkersOutside s)
    {q : CCheckQueue T} {session : Session T} {c : Ctl T} :
    WorkersOutside (Pool.goto ⟨q, s.ctl, session⟩ none c) := fun w =>
  (goto_ctl_of_ne _ _ (by simp)).trans (h w)

theorem WorkersOutside.notify [DecidableEq ι] {s s' : Pool T ι} {vChecks : List T}
    (h : WorkersOutside s) (hn : Notify s vChecks s') : WorkersOutside s' := by
  intro w
  rcases hn.ctl (some w) with hw | hw
  · rw [hw, h w]
  · rw [hw, h w]
    rfl

variable [Fintype ι]

theorem outstanding_of_outside {s : Pool T ι} (h : WorkersOutside s) :
    s.outstanding = s.q.queue.length + (s.ctl none).pending := by
  have ht : total Ctl.pending s.ctl = (s.ctl none).pending := by
    unfold total
    rw [Fintype.sum_option, Finset.sum_eq_zero, add_zero]
    intro w _
    rw [h w]
    rfl
  rw [outstanding, ht]

variable [DecidableEq ι]

/-- With nobody to notify, `Add` only fills the queue. -/
theorem add_enabled (eval : T → Bool) (s : Pool T ι) (vChecks : List T)
    (hm : s.ctl none = .outside) (hw : WorkersOutside s) :
    ∃ s', s.step eval (.add vChecks none) = some s' ∧ s'.q.queue = s.q.queue ++ vChecks ∧
      s'.ctl none = .outside ∧ WorkersOutside s' := by
  obtain ⟨s', h'⟩ : ∃ s', s.step eval (.add vChecks none) = some s' := by
    simp only [Pool.step, addBatch, hm]
    split
    · refine ⟨_, if_pos fun w => ?_⟩
      change (s.ctl (some w)).isWaiting = false
      rw [hw w]
      rfl
    · split <;> exact ⟨_, rfl⟩
  refine ⟨s', h', ?_⟩
  cases step_cases h' with
  | add _ _ s₁ hc hn =>
    have hw₁ : WorkersOutside s₁ := hw.notify hn
    exact ⟨CCheckQueue.add_queue .., hn.master.trans hm, hw₁⟩

/-- The pool restricted to the steps of threads in `Loop`. -/
def loop (eval : T → Bool) (nBatchSize : UInt32) : Machine (Pool T ι) (Act T ι) :=
  (pool eval nBatchSize).guarded fun _ a _ => a.inLoop

theorem Ledger.reaches {eval : T → Bool} {nBatchSize : UInt32} {s s' : Pool T ι} (h : Ledger s)
    (hr : (loop eval nBatchSize).Reaches s s') : Ledger s' := by
  obtain ⟨as, ha⟩ := hr
  refine Machine.run_invariant (fun s a t h ht => ?_) h ha
  exact h.step (step_cases (Machine.guarded_step.mp ht).1)

/-- The master executes its batch and comes back to the top of the loop. -/
theorem master_executes (eval : T → Bool) (nBatchSize : UInt32) (vChecks : List T) (n : UInt32) :
    ∀ (s : Pool T ι) (fOk : Bool), s.ctl none = .working vChecks n fOk → WorkersOutside s →
      ∃ s' fOk', (loop eval nBatchSize).Reaches s s' ∧ s'.ctl none = .top n fOk' ∧
        s'.q = s.q ∧ WorkersOutside s' := by
  induction vChecks with
  | nil =>
    intro s fOk hc hw
    refine ⟨s.goto none (.top n fOk), fOk, .step (a := .exec none) ?_, goto_ctl_self .., rfl,
      hw.goto⟩
    simp [loop, Machine.guarded, pool, Pool.step, execute, hc, Act.inLoop]
  | cons c rest ih =>
    intro s fOk hc hw
    cases fOk with
    | true =>
      let s₁ : Pool T ι := Pool.goto { s with
        session := { s.session with executed := c ::ₘ s.session.executed } } none
          (.working rest n (eval c))
      obtain ⟨s', f, hr, hs⟩ := ih s₁ (eval c) (goto_ctl_self ..) hw.goto
      refine ⟨s', f, .head (a := .exec none) ?_ hr, hs⟩
      simp [s₁, loop, Machine.guarded, pool, Pool.step, execute, hc, Act.inLoop]
    | false =>
      obtain ⟨s', f, hr, hs⟩ := ih (s.goto none (.working rest n false)) false
        (goto_ctl_self ..) hw.goto
      refine ⟨s', f, .head (a := .exec none) ?_ hr, hs⟩
      simp [loop, Machine.guarded, pool, Pool.step, execute, hc, Act.inLoop]

/-- **Progress of `Wait` without workers.** -/
theorem master_returns (eval : T → Bool) (nBatchSize : UInt32) (s : Pool T ι) (n : UInt32)
    (fOk : Bool) (hl : Ledger s) (hc : s.ctl none = .top n fOk) (hw : WorkersOutside s) :
    ∃ s' r, (loop eval nBatchSize).Reaches s s' ∧ s'.ctl none = .returned r ∧
      s'.q.queue = [] ∧ WorkersOutside s' := by
  induction hk : s.q.queue.length using Nat.strong_induction_on generalizing s n fOk with
  | _ k ih =>
    obtain ⟨s', h'⟩ := lock_enabled eval s none (Or.inl ⟨n, fOk, hc⟩)
    have hstep : (loop eval nBatchSize).step s (.lock none) = some s' :=
      Machine.guarded_step.mpr ⟨h', rfl⟩
    have hl' := hl.step (step_cases h')
    cases step_cases h' with
    | lock _ s₁ _ ha hp =>
      have hl₁ := hl.acquire ha
      have hc₁ : s₁.ctl none = .testing := ha.testing
      obtain ⟨hw₁, hq₁⟩ : WorkersOutside s₁ ∧ s₁.q.queue = s.q.queue := by
        cases ha with
        | first fOk' hc' => exact ⟨hw.goto, rfl⟩
        | report n' fOk' hc' hn hz => exact ⟨hw.goto, by simp⟩
        | reportLast n' fOk' w hc' hn hw' hz => cases hw'
        | rewoken hc' => exact ⟨hw.goto, rfl⟩
      cases hp with
      | finish he hf hz => exact ⟨_, _, .step hstep, goto_ctl_self .., he, hw₁.goto⟩
      | wait he hz =>
        -- With the queue empty and no worker inside, nothing is outstanding.
        refine absurd ?_ (hz rfl)
        rw [hl₁.nTodo_eq, outstanding_of_outside hw₁, he, hc₁]
        rfl
      | take rest batch hne hq hlen =>
        have hw₂ : WorkersOutside (Pool.goto { s₁ with
            q := { s₁.q with queue := rest }
            session := { s₁.session with taken := s₁.session.taken + batch } } none
              (.working batch s₁.q.nNow s₁.q.fAllOk)) := hw₁.goto
        obtain ⟨s₂, f, hr, hc₂, hq₂, hw₃⟩ :=
          master_executes eval nBatchSize batch s₁.q.nNow _ _ (goto_ctl_self ..) hw₂
        have hlt : s₂.q.queue.length < k := by
          have hpos := s₁.q.nNow_pos
          have hlen' : k = rest.length + batch.length := by
            rw [← hk, ← hq₁, hq, List.length_append, List.length_reverse]
          have hrest : s₂.q.queue = rest := by rw [hq₂, goto_q]
          rw [hrest]
          omega
        obtain ⟨s₃, r, hr', hs₃⟩ := ih _ hlt s₂ _ f (hl'.reaches hr) hc₂ hw₃ rfl
        exact ⟨s₃, r, .head hstep (hr.trans hr'), hs₃⟩

end LearnFramework.CheckQueue
