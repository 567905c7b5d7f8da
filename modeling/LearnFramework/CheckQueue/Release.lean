import LearnFramework.CheckQueue.Control
import LearnFramework.CheckQueue.Result

/-!
# What the control object leaves behind

The destructor skips its `Wait` once `fDone` is set, and `fDone` is set by the
first `Wait` and never cleared. So the queue is finished at the release of
`ControlMutex` when no check was added after the last `Wait` (`finished`), and
need not be otherwise: checks added after it stay in the queue and count in the
result of the next object.
-/

namespace LearnFramework.CheckQueue

open Machines Families Pool

variable {T ι : Type*}

/-! ## The condition on the calls -/

/-- The checks added since the last `Wait` among the calls. -/
def sinceWait : List (Call T) → List T :=
  List.foldl (fun checks call =>
    match call with
    | .add vChecks => checks ++ vChecks
    | .wait => []) []

def hasWait (calls : List (Call T)) : Bool :=
  calls.any fun
    | .wait => true
    | .add _ => false

/-- `Wait` was not called, or nothing was added after the last call of it. -/
def finished (calls : List (Call T)) : Bool := !hasWait calls || (sinceWait calls).isEmpty

@[simp] theorem sinceWait_add (calls : List (Call T)) (vChecks : List T) :
    sinceWait (calls ++ [.add vChecks]) = sinceWait calls ++ vChecks := by
  simp [sinceWait]

@[simp] theorem sinceWait_wait (calls : List (Call T)) :
    sinceWait (calls ++ [.wait]) = [] := by
  simp [sinceWait]

@[simp] theorem hasWait_add (calls : List (Call T)) (vChecks : List T) :
    hasWait (calls ++ [.add vChecks]) = hasWait calls := by
  simp [hasWait]

@[simp] theorem hasWait_wait (calls : List (Call T)) : hasWait (calls ++ [.wait]) = true := by
  simp [hasWait]

/-! ## What `fDone` tracks -/

/-- The checks that the current `Wait` of the pool is about. -/
def Control.expected (s : Control T ι) : List T :=
  match s.phase with
  | .idle => if s.object.pqueue then sinceWait s.calls else []
  | .inWait => sinceWait s.calls
  | .inDestructor => sinceWait s.calls
  | _ => []

structure Tracks (s : Control T ι) : Prop where
  added_eq : s.pool.session.added = (s.expected : Multiset T)
  fDone_eq : s.phase = .idle → s.object.pqueue = true → s.object.fDone = hasWait s.calls
  outside : s.phase ≠ .inWait → s.phase ≠ .inDestructor → s.pool.ctl none = .outside

/-- A step of the object that leaves the pool alone and expects the same checks. -/
theorem Tracks.quiet {s s' : Control T ι} (h : Tracks s) (hpool : s'.pool = s.pool)
    (he : s'.expected = s.expected)
    (hf : s'.phase = .idle → s'.object.pqueue = true → s'.object.fDone = hasWait s'.calls)
    (h1 : s.phase ≠ .inWait) (h2 : s.phase ≠ .inDestructor) : Tracks s' := by
  refine ⟨?_, hf, fun _ _ => ?_⟩
  · rw [hpool, he]
    exact h.added_eq
  · rw [hpool]
    exact h.outside h1 h2

/-- Between two calls on an object with a queue. -/
theorem Tracks.added_idle {s : Control T ι} (h : Tracks s) (hp : s.phase = .idle)
    (hq : s.object.pqueue = true) : s.pool.session.added = (sinceWait s.calls : Multiset T) := by
  simpa only [Control.expected, hp, hq, if_true] using h.added_eq

variable [Fintype ι] [DecidableEq ι]

theorem Tracks.step {eval : T → Bool} {s s' : Control T ι} {a : ControlAct T ι} (h : Tracks s)
    (hs : ControlStep eval s a s') (hd : a = .destroy → s.object.pqueue = true →
      finished s.calls = true) : Tracks s' := by
  cases hs with
  | construct b hp =>
    have he : (Control.mk s.pool ⟨b, false⟩ .idle []).expected = s.expected := by
      cases b <;> simp [Control.expected, hp, sinceWait]
    exact h.quiet rfl he (fun _ _ => rfl) (by simp [hp]) (by simp [hp])
  | add vChecks pick p hp hq hs =>
    cases step_cases hs with
    | add _ _ s₁ hc hn =>
      refine ⟨?_, fun _ _ => ?_, fun _ _ => hn.master.trans hc⟩
      · simp only [Control.expected, hp, hq, if_true, sinceWait_add, ← Multiset.coe_add,
          h.added_idle hp hq]
      · rw [hasWait_add]
        exact h.fDone_eq hp hq
  | addNull vChecks pick hp hq =>
    exact h.quiet rfl (by simp [Control.expected, hp, hq]) (fun _ hq' => absurd hq' (by simp [hq]))
      (by simp [hp]) (by simp [hp])
  | wait p hp hq hs =>
    cases step_cases hs with
    | enter _ hc =>
      exact ⟨h.added_idle hp hq, fun hp' => (by cases hp'), fun hp' => absurd rfl hp'⟩
  | waitNull hp hq =>
    exact h.quiet rfl (by simp [Control.expected, hp, hq]) (fun _ hq' => absurd hq' (by simp [hq]))
      (by simp [hp]) (by simp [hp])
  | waitReturns p hp hs =>
    cases step_cases hs with
    | leave r hc =>
      refine ⟨?_, fun _ _ => (hasWait_wait _).symm, fun _ _ => goto_ctl_self ..⟩
      simp only [Control.expected, sinceWait_wait, ite_self]
      rfl
  | destructorReturns p hp hs =>
    cases step_cases hs with
    | leave r hc => exact ⟨rfl, fun hp' => (by cases hp'), fun _ _ => goto_ctl_self ..⟩
  | destroyDone hp hq hf =>
    -- `fDone` is set, so `Wait` was called and nothing was added after it.
    have hempty : sinceWait s.calls = [] := by
      have hw := hd rfl hq
      rw [finished, ← h.fDone_eq hp hq, hf] at hw
      simpa using hw
    exact h.quiet rfl (by simp [Control.expected, hp, hq, hempty]) (fun hp' => (by cases hp'))
      (by simp [hp]) (by simp [hp])
  | destroyWait p hp hq hf hs =>
    cases step_cases hs with
    | enter _ hc =>
      exact ⟨h.added_idle hp hq, fun hp' => (by cases hp'), fun _ hp' => absurd rfl hp'⟩
  | destroyNull hp hq =>
    exact h.quiet rfl (by simp [Control.expected, hp, hq]) (fun hp' => (by cases hp'))
      (by simp [hp]) (by simp [hp])
  | release hp =>
    exact h.quiet rfl (by simp [Control.expected, hp]) (fun hp' => (by cases hp'))
      (by simp [hp]) (by simp [hp])
  | thread b p hb hs =>
    have hst := step_cases hs
    exact ⟨(hst.inLoop_added hb).trans h.added_eq, h.fDone_eq, fun h1 h2 =>
      hst.inLoop_outside hb (h.outside h1 h2)⟩

/-! ## The end of an object -/

/-- Every check has been taken and reported. -/
def Pool.Finished (s : Pool T ι) : Prop :=
  s.q.queue = [] ∧ s.q.nTodo = 0 ∧ ∀ t, (s.ctl t).pending = 0

/-- The runs with fewer than 2^32 outstanding checks. -/
def boundedControl (eval : T → Bool) (nBatchSize : UInt32) :
    Machine (Control T ι) (ControlAct T ι) :=
  (control eval nBatchSize).guarded fun _ _ t => t.pool.bounded

/-- The runs in which, besides, no object is destroyed with checks added after its
last `Wait`. -/
def quietControl (eval : T → Bool) (nBatchSize : UInt32) :
    Machine (Control T ι) (ControlAct T ι) :=
  (control eval nBatchSize).guarded fun s a t =>
    t.pool.bounded &&
      match a with
      | .destroy => !s.object.pqueue || finished s.calls
      | _ => true

variable {eval : T → Bool} {nBatchSize : UInt32}

theorem pool_reachable {s : Control T ι} (hs : (quietControl eval nBatchSize).Reachable s) :
    (boundedPool eval nBatchSize).Reachable s.pool := by
  refine Machine.Simulates.reachable (f := Control.pool) ?_ hs
  refine (control_simulates eval nBatchSize).guarded fun s a t b h => ?_
  exact (Bool.and_eq_true_iff.mp h).1

theorem tracks_of_reachable {s : Control T ι} (hs : (quietControl eval nBatchSize).Reachable s) :
    Tracks s := by
  refine hs.invariant ⟨rfl, fun hp => (by cases hp), fun _ _ => rfl⟩ fun s a t h ha => ?_
  obtain ⟨hst, hG⟩ := Machine.guarded_step.mp ha
  refine h.step (controlStep_cases hst) ?_
  rintro rfl hq
  simpa [hq] using (Bool.and_eq_true_iff.mp hG).2

/-- At the release of `ControlMutex` the queue is finished. -/
theorem finished_of_releasing {s : Control T ι}
    (hs : (quietControl eval nBatchSize).Reachable s) (hp : s.phase = .releasing) :
    s.pool.Finished := by
  have hr := pool_reachable hs
  have ha := (tracks_of_reachable hs).added_eq
  simp only [Control.expected, hp, Multiset.coe_nil] at ha
  have hout := outstanding_of_added hr ha
  have hl := ledger_of_reachable hr.of_guarded
  obtain ⟨hq, hpend⟩ := pending_eq_zero hout
  refine ⟨hq, ?_, hpend⟩
  rw [hl.nTodo_eq, hout]
  rfl

/-- The result of a `Wait` is about the checks added through the object since the
`Wait` before it. -/
theorem returned_of_inWait {s : Control T ι} {r : Bool}
    (hs : (quietControl eval nBatchSize).Reachable s)
    (hp : s.phase = .inWait ∨ s.phase = .inDestructor) (hr : s.pool.ctl none = .returned r) :
    r = true ↔ ∀ c ∈ sinceWait s.calls, eval c = true := by
  have ha : s.pool.session.added = (sinceWait s.calls : Multiset T) := by
    have ha := (tracks_of_reachable hs).added_eq
    rcases hp with hp | hp
    · simpa only [Control.expected, hp] using ha
    · simpa only [Control.expected, hp] using ha
  rw [returned_true_iff (pool_reachable hs) hr, ha]
  simp only [Multiset.mem_coe]

/-! ## What `fDone` misses -/

/-- The threads in `Loop` move under the control object. -/
theorem control_reaches_of_loop {p p' : Pool T ι} (s : Control T ι)
    (h : (loop eval nBatchSize).Reaches p p') :
    (control eval nBatchSize).Reaches { s with pool := p } { s with pool := p' } := by
  refine Machine.Reaches.map (f := fun p => { s with pool := p }) (fun p a q hq => ?_) h
  obtain ⟨hs, ha⟩ := Machine.guarded_step.mp hq
  refine Or.inr ⟨.thread a, ?_⟩
  have hs' : p.step eval a = some q := hs
  simp [control, Control.step, ha, hs']

/-- The state after `calls` on a first object, with all workers still outside. -/
structure AfterCalls (eval : T → Bool) (nBatchSize : UInt32) (calls : List (Call T))
    (s : Control T ι) : Prop where
  reachable : (control eval nBatchSize).Reachable s
  phase_eq : s.phase = .idle
  object_eq : s.object = ⟨true, hasWait calls⟩
  calls_eq : s.calls = calls
  queue_eq : s.pool.q.queue = sinceWait calls
  master : s.pool.ctl none = .outside
  workers : WorkersOutside s.pool

theorem AfterCalls.add {calls : List (Call T)} {s : Control T ι}
    (h : AfterCalls eval nBatchSize calls s) (vChecks : List T) :
    ∃ s' : Control T ι, AfterCalls eval nBatchSize (calls ++ [.add vChecks]) s' := by
  obtain ⟨p, hp, hq, hm, hw⟩ := add_enabled eval s.pool vChecks h.master h.workers
  have hstep : (control eval nBatchSize).step s (.add vChecks none) =
      some { s with pool := p, calls := s.calls ++ [.add vChecks] } := by
    simp [control, Control.step, h.phase_eq, h.object_eq, hp]
  refine ⟨_, h.reachable.step hstep, h.phase_eq, ?_, ?_, ?_, hm, hw⟩
  · rw [hasWait_add]
    exact h.object_eq
  · rw [h.calls_eq]
  · rw [sinceWait_add, ← h.queue_eq]
    exact hq

theorem AfterCalls.wait {calls : List (Call T)} {s : Control T ι}
    (h : AfterCalls eval nBatchSize calls s) :
    ∃ s' : Control T ι, AfterCalls eval nBatchSize (calls ++ [.wait]) s' := by
  have hl := ledger_of_reachable ((control_simulates eval nBatchSize).reachable h.reachable)
  have henter : s.pool.step eval (.enter none) = some (s.pool.goto none (.top 0 true)) := by
    simp [Pool.step, h.master]
  obtain ⟨p, r, hr, hc, hq, hw⟩ := master_returns eval nBatchSize
    (s.pool.goto none (.top 0 true)) 0 true (hl.step (step_cases henter)) (goto_ctl_self ..)
    h.workers.goto
  let s₁ : Control T ι := { s with pool := s.pool.goto none (.top 0 true), phase := .inWait }
  have h₁ : (control eval nBatchSize).step s .wait = some s₁ := by
    simp [s₁, control, Control.step, Control.callWait, h.phase_eq, h.object_eq, henter]
  have h₂ : (control eval nBatchSize).step { s₁ with pool := p } .waitReturns = some
      { s₁ with
        pool := Pool.goto { p with session := .empty } none .outside
        object := { s.object with fDone := true }
        phase := .idle
        calls := s.calls ++ [.wait] } := by
    simp [s₁, control, Control.step, Pool.step, hc]
  refine ⟨_, ((h.reachable.step h₁).trans (control_reaches_of_loop s₁ hr)).tail h₂, rfl, ?_, ?_, ?_,
    goto_ctl_self .., hw.goto⟩
  · rw [h.object_eq, hasWait_wait]
  · rw [h.calls_eq]
  · rw [sinceWait_wait]
    exact hq

theorem afterCalls_exists (eval : T → Bool) (nBatchSize : UInt32) (calls : List (Call T)) :
    ∃ s : Control T ι, AfterCalls eval nBatchSize calls s := by
  induction calls using List.reverseRecOn with
  | nil =>
    have hstep : (control (ι := ι) eval nBatchSize).step (control eval nBatchSize).init
        (.construct true) = some
          { (control eval nBatchSize).init with object := ⟨true, false⟩, phase := .idle } := rfl
    exact ⟨_, Machine.Reachable.init.step hstep, rfl, rfl, rfl, rfl, rfl, fun _ => rfl⟩
  | append_singleton calls call ih =>
    obtain ⟨s, hs⟩ := ih
    cases call with
    | add vChecks => exact hs.add vChecks
    | wait => exact hs.wait

/-- Any calls that end with checks added after a `Wait` can leave them behind. -/
theorem leak_of_unfinished (eval : T → Bool) (nBatchSize : UInt32) (calls : List (Call T))
    (hf : finished calls = false) :
    ∃ s : Control T ι, (control eval nBatchSize).Reachable s ∧ s.calls = calls ∧
      s.phase = .releasing ∧ s.pool.q.queue = sinceWait calls ∧ sinceWait calls ≠ [] := by
  obtain ⟨s, hs⟩ := afterCalls_exists (ι := ι) eval nBatchSize calls
  simp only [finished, Bool.or_eq_false_iff, Bool.not_eq_false', List.isEmpty_eq_false_iff] at hf
  have hstep : (control eval nBatchSize).step s .destroy = some { s with phase := .releasing } := by
    simp [control, Control.step, hs.phase_eq, hs.object_eq, hf.1]
  exact ⟨_, hs.reachable.step hstep, hs.calls_eq, rfl, hs.queue_eq, hf.2⟩

/-- **The control object.** If no object is destroyed with checks added after its
last `Wait`, the queue is finished at every release of `ControlMutex`, and each
`Wait` is about the checks added through its object since the `Wait` before.
Any other sequence of calls can leave its last checks in the queue. -/
theorem control_finished (eval : T → Bool) (nBatchSize : UInt32) :
    (∀ s : Control T ι, (quietControl eval nBatchSize).Reachable s →
      (s.phase = .releasing → s.pool.Finished) ∧
      (s.phase = .inWait ∨ s.phase = .inDestructor → ∀ r, s.pool.ctl none = .returned r →
        (r = true ↔ ∀ c ∈ sinceWait s.calls, eval c = true))) ∧
    ∀ calls : List (Call T), finished calls = false →
      ∃ s : Control T ι, (control eval nBatchSize).Reachable s ∧ s.calls = calls ∧
        s.phase = .releasing ∧ ¬s.pool.Finished := by
  refine ⟨fun s hs => ⟨finished_of_releasing hs, fun hp r hr => returned_of_inWait hs hp hr⟩, ?_⟩
  intro calls hf
  obtain ⟨s, hs, hc, hp, hq, hne⟩ := leak_of_unfinished (ι := ι) eval nBatchSize calls hf
  exact ⟨s, hs, hc, hp, fun h => hne (hq.symm.trans h.1)⟩

/-- One object adds a check, waits and is destroyed. -/
theorem control_finished_add_wait :
    ∃ s : Control Bool (Fin 1), s.phase = .releasing ∧ s.pool.Finished := by
  have h : ((quietControl (ι := Fin 1) id 128).run (quietControl id 128).init
      [.construct true, .thread (.enter (some 0)), .thread (.lock (some 0)),
        .add [true] (some 0), .thread (.lock (some 0)), .wait, .thread (.lock none),
        .thread (.exec (some 0)), .thread (.exec (some 0)), .thread (.lock (some 0)),
        .thread (.lock none), .waitReturns, .destroy]).map
          (fun s => decide (s.phase = .releasing)) = some true := by decide
  obtain ⟨s, hs, hp⟩ := Machine.reachable_of_run h
  have hp' : s.phase = .releasing := of_decide_eq_true hp
  exact ⟨s, hp', ((control_finished id 128).1 s hs).1 hp'⟩

/-- `Wait`, then `Add` of one check: the destructor leaves the check in the queue. -/
theorem control_leaks_after_wait :
    ¬∀ s : Control Bool (Fin 1), (boundedControl id 128).Reachable s → s.phase = .releasing →
      s.pool.Finished := by
  intro h
  have hrun : ((boundedControl (ι := Fin 1) id 128).run (boundedControl id 128).init
      [.construct true, .wait, .thread (.lock none), .waitReturns, .add [false] none,
        .destroy]).map (fun s => decide (s.phase = .releasing ∧ s.pool.q.queue ≠ [])) =
          some true := by decide
  obtain ⟨s, hs, hp⟩ := Machine.reachable_of_run hrun
  have hp' : s.phase = .releasing ∧ s.pool.q.queue ≠ [] := of_decide_eq_true hp
  exact hp'.2 (h s hs hp'.1).1

end LearnFramework.CheckQueue
