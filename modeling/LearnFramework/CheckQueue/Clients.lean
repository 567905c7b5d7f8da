import LearnFramework.CheckQueue.Release
import LearnFramework.CheckQueue.Termination

/-!
# Many control objects

Any number of threads use one queue, each through control objects of its own. An object
with a queue locks `ControlMutex` in its constructor and unlocks it at the end of its
destructor; in between its calls are those of `Control`. So whatever the threads do, the
queue sees one object after the other (`clients_simulates`), and what holds of the
objects of a single master holds of all of them.
-/

namespace LearnFramework.CheckQueue

open Machines Families Pool

variable {T ι κ : Type*}

/-- Where a thread is with respect to its control object. -/
inductive Stage where
  /-- in the constructor, at the lock of `ControlMutex` -/
  | entering
  /-- past the constructor, or with no object (`free`) -/
  | inside (phase : Phase)
  deriving DecidableEq, Repr

structure Client (T : Type*) where
  stage : Stage
  object : CCheckQueueControl
  calls : List (Call T)

structure Clients (T ι κ : Type*) where
  pool : Pool T ι
  /-- the thread that has locked it -/
  controlMutex : Option κ
  client : κ → Client T

/-- The steps of a thread that has an object. -/
inductive ClientCall (T ι : Type*) where
  | add (vChecks : List T) (pick : Option ι)
  | wait
  | waitReturns
  | destroy
  | release

namespace ClientCall

def act : ClientCall T ι → ControlAct T ι
  | .add vChecks pick => .add vChecks pick
  | .wait => .wait
  | .waitReturns => .waitReturns
  | .destroy => .destroy
  | .release => .release

def unlocks : ClientCall T ι → Bool
  | .release => true
  | _ => false

end ClientCall

inductive ClientAct (T ι κ : Type*) where
  | construct (k : κ) (pqueue : Bool)
  | lock (k : κ)
  | call (k : κ) (c : ClientCall T ι)
  | thread (a : Act T ι)

namespace Clients

variable [DecidableEq κ]

def set (s : Clients T ι κ) (k : κ) (c : Client T) : Clients T ι κ :=
  { s with client := Function.update s.client k c }

/-- The object of `k` on the queue. -/
def object (s : Clients T ι κ) (k : κ) (phase : Phase) : Control T ι :=
  ⟨s.pool, (s.client k).object, phase, (s.client k).calls⟩

variable [Fintype ι] [DecidableEq ι]

def step (eval : T → Bool) (s : Clients T ι κ) : ClientAct T ι κ → Option (Clients T ι κ)
  | .construct k pqueue =>
    match (s.client k).stage with
    | .inside .free =>
      some (s.set k ⟨if pqueue then .entering else .inside .idle, ⟨pqueue, false⟩, []⟩)
    | _ => none
  | .lock k =>
    match (s.client k).stage with
    | .entering =>
      if s.controlMutex.isNone then
        some ({ s with controlMutex := some k }.set k
          ⟨.inside .idle, (s.client k).object, (s.client k).calls⟩)
      else none
    | _ => none
  | .call k c =>
    match (s.client k).stage with
    | .inside phase =>
      ((s.object k phase).step eval c.act).map fun o =>
        { s with
          pool := o.pool
          controlMutex := if c.unlocks then none else s.controlMutex }.set k
            ⟨.inside o.phase, o.object, o.calls⟩
    | .entering => none
  | .thread a =>
    if a.inLoop then (s.pool.step eval a).map fun pool => { s with pool := pool } else none

omit [Fintype ι] [DecidableEq ι]

@[simp] theorem set_self (s : Clients T ι κ) (k : κ) (c : Client T) :
    (s.set k c).client k = c := Function.update_self ..

theorem set_of_ne (s : Clients T ι κ) {j k : κ} (c : Client T) (h : j ≠ k) :
    (s.set k c).client j = s.client j := Function.update_of_ne h ..

end Clients

/-- The pool under the control objects of all threads in `κ`. -/
def clients [Fintype ι] [DecidableEq ι] [DecidableEq κ] (eval : T → Bool) (nBatchSize : UInt32) :
    Machine (Clients T ι κ) (ClientAct T ι κ) where
  init := ⟨(pool eval nBatchSize).init, none, fun _ => ⟨.inside .free, ⟨false, false⟩, []⟩⟩
  step := Clients.step eval

/-! ## One object after the other -/

section

variable [Fintype ι] [DecidableEq ι] [DecidableEq κ] {eval : T → Bool} {nBatchSize : UInt32}

/-- The steps, with the branches resolved. -/
inductive ClientStep (eval : T → Bool) (s : Clients T ι κ) :
    ClientAct T ι κ → Clients T ι κ → Prop
  | construct (k : κ) (pqueue : Bool) (hk : (s.client k).stage = .inside .free) :
      ClientStep eval s (.construct k pqueue)
        (s.set k ⟨if pqueue then .entering else .inside .idle, ⟨pqueue, false⟩, []⟩)
  | lock (k : κ) (hk : (s.client k).stage = .entering) (hm : s.controlMutex = none) :
      ClientStep eval s (.lock k)
        ({ s with controlMutex := some k }.set k
          ⟨.inside .idle, (s.client k).object, (s.client k).calls⟩)
  | call (k : κ) (c : ClientCall T ι) (p : Phase) (o : Control T ι)
      (hk : (s.client k).stage = .inside p) (ho : (s.object k p).step eval c.act = some o) :
      ClientStep eval s (.call k c)
        ({ s with
          pool := o.pool
          controlMutex := if c.unlocks then none else s.controlMutex }.set k
            ⟨.inside o.phase, o.object, o.calls⟩)
  | thread (a : Act T ι) (pool : Pool T ι) (ha : a.inLoop = true)
      (hs : s.pool.step eval a = some pool) :
      ClientStep eval s (.thread a) { s with pool := pool }

theorem clientStep_cases {s s' : Clients T ι κ} {a : ClientAct T ι κ}
    (h : s.step eval a = some s') : ClientStep eval s a s' := by
  cases a with
  | construct k pqueue =>
    simp only [Clients.step] at h
    split at h <;> cases h
    exact .construct k pqueue ‹_›
  | lock k =>
    simp only [Clients.step] at h
    split at h
    · split at h
      · cases h
        exact .lock k ‹_› (Option.isNone_iff_eq_none.mp ‹_›)
      · cases h
    · cases h
  | call k c =>
    simp only [Clients.step] at h
    split at h
    · obtain ⟨o, ho, rfl⟩ := Option.map_eq_some_iff.mp h
      exact .call k c _ o ‹_› ho
    · cases h
  | thread a =>
    simp only [Clients.step] at h
    split at h
    · obtain ⟨pool, hs, rfl⟩ := Option.map_eq_some_iff.mp h
      exact .thread a pool ‹_› hs
    · cases h

/-- A call on an object with a queue. Only the unlock ends the object. -/
theorem ClientCall.step_queue {c o : Control T ι} {a : ClientCall T ι}
    (h : c.step eval a.act = some o) (hq : c.object.pqueue = true) :
    c.phase ≠ .free ∧ o.object.pqueue = true ∧ (o.phase = .free ↔ a.unlocks = true) := by
  cases a with
  | add vChecks pick =>
    cases controlStep_cases h with
    | add _ _ pool hp _ hs => exact ⟨by simp [hp], hq, by simp [hp, unlocks]⟩
    | addNull _ _ hp hq' => simp [hq] at hq'
  | wait =>
    cases controlStep_cases h with
    | wait pool hp _ hs => exact ⟨by simp [hp], hq, by simp [unlocks]⟩
    | waitNull hp hq' => simp [hq] at hq'
  | waitReturns =>
    cases controlStep_cases h with
    | waitReturns pool hp hs => exact ⟨by simp [hp], hq, by simp [unlocks]⟩
    | destructorReturns pool hp hs => exact ⟨by simp [hp], hq, by simp [unlocks]⟩
  | destroy =>
    cases controlStep_cases h with
    | destroyDone hp _ hd => exact ⟨by simp [hp], hq, by simp [unlocks]⟩
    | destroyWait pool hp _ hd hs => exact ⟨by simp [hp], hq, by simp [unlocks]⟩
    | destroyNull hp hq' => simp [hq] at hq'
  | release =>
    cases controlStep_cases h with
    | release hp => exact ⟨by simp [hp], hq, by simp [unlocks]⟩

/-- A call on an object without a queue leaves the queue alone. -/
theorem ClientCall.step_null {c o : Control T ι} {a : ClientCall T ι}
    (h : c.step eval a.act = some o) (hq : c.object.pqueue = false)
    (hp : c.phase = .free ∨ c.phase = .idle) :
    o.pool = c.pool ∧ o.object.pqueue = false ∧ (o.phase = .free ∨ o.phase = .idle) ∧
      a.unlocks = false := by
  cases a with
  | add vChecks pick =>
    cases controlStep_cases h with
    | add _ _ pool _ hq' hs => simp [hq] at hq'
    | addNull _ _ _ _ => exact ⟨rfl, hq, hp, rfl⟩
  | wait =>
    cases controlStep_cases h with
    | wait pool _ hq' hs => simp [hq] at hq'
    | waitNull _ _ => exact ⟨rfl, hq, hp, rfl⟩
  | waitReturns =>
    cases controlStep_cases h with
    | waitReturns pool hp' hs => simp [hp'] at hp
    | destructorReturns pool hp' hs => simp [hp'] at hp
  | destroy =>
    cases controlStep_cases h with
    | destroyDone _ hq' hd => simp [hq] at hq'
    | destroyWait pool _ hq' hd hs => simp [hq] at hq'
    | destroyNull _ _ => exact ⟨rfl, hq, Or.inl rfl, rfl⟩
  | release =>
    cases controlStep_cases h with
    | release hp' => simp [hp'] at hp

/-- The queue under all objects is as it is under `c`, the object of the thread that has
locked `ControlMutex`. -/
structure Shows (s : Clients T ι κ) (c : Control T ι) : Prop where
  pool_eq : c.pool = s.pool
  unlocked : s.controlMutex = none → c.phase = .free
  locked : ∀ k, s.controlMutex = some k → (s.client k).stage = .inside c.phase ∧
    c.phase ≠ .free ∧ c = s.object k c.phase ∧ c.object.pqueue = true
  exclusive : ∀ k p, (s.client k).stage = .inside p → p ≠ .free →
    (s.client k).object.pqueue = true → s.controlMutex = some k
  null : ∀ k p, (s.client k).stage = .inside p → (s.client k).object.pqueue = false →
    p = .free ∨ p = .idle
  entering : ∀ k, (s.client k).stage = .entering → (s.client k).object = ⟨true, false⟩ ∧
    (s.client k).calls = []

namespace Shows

omit [Fintype ι] [DecidableEq ι] in
/-- A thread that has not locked `ControlMutex` moves, and does not lock it. -/
theorem other {s : Clients T ι κ} {c : Control T ι} (h : Shows s c) {k : κ} {new : Client T}
    (hk : s.controlMutex ≠ some k)
    (hexcl : ∀ p, new.stage = .inside p → new.object.pqueue = true → p = .free)
    (hnull : ∀ p, new.stage = .inside p → new.object.pqueue = false → p = .free ∨ p = .idle)
    (henter : new.stage = .entering → new.object = ⟨true, false⟩ ∧ new.calls = []) :
    Shows (s.set k new) c := by
  have hclient : ∀ j, j ≠ k → (s.set k new).client j = s.client j :=
    fun j hj => s.set_of_ne new hj
  refine ⟨h.pool_eq, h.unlocked, fun j hj => ?_, fun j p hs hp hq => ?_, fun j p hs hq => ?_,
    fun j hs => ?_⟩
  · have hne : j ≠ k := by
      rintro rfl
      exact hk hj
    have hl := h.locked j hj
    rw [hclient j hne]
    refine ⟨hl.1, hl.2.1, ?_, hl.2.2.2⟩
    rw [hl.2.2.1]
    simp only [Clients.object, hclient j hne]
    rfl
  · by_cases hj : j = k
    · subst hj
      rw [Clients.set_self] at hs hq
      exact absurd (hexcl p hs hq) hp
    · rw [hclient j hj] at hs hq
      exact h.exclusive j p hs hp hq
  · by_cases hj : j = k
    · subst hj
      rw [Clients.set_self] at hs hq
      exact hnull p hs hq
    · rw [hclient j hj] at hs hq
      exact h.null j p hs hq
  · by_cases hj : j = k
    · subst hj
      rw [Clients.set_self] at hs ⊢
      exact henter hs
    · rw [hclient j hj] at hs ⊢
      exact h.entering j hs

omit [Fintype ι] [DecidableEq ι] in
/-- A thread that is alone on the queue moves, and keeps `ControlMutex` or unlocks it. -/
theorem alone {s : Clients T ι κ} {c : Control T ι} (h : Shows s c) {k : κ} {o : Control T ι}
    {m : Option κ} (hk : ∀ j, s.controlMutex = some j → j = k) (hq : o.object.pqueue = true)
    (hm : m = some k ∧ o.phase ≠ .free ∨ m = none ∧ o.phase = .free) :
    Shows ({ s with pool := o.pool, controlMutex := m }.set k
      ⟨.inside o.phase, o.object, o.calls⟩) o := by
  have hclient : ∀ j, j ≠ k → ({ s with pool := o.pool, controlMutex := m }.set k
      ⟨.inside o.phase, o.object, o.calls⟩).client j = s.client j :=
    fun j hj => Clients.set_of_ne _ _ hj
  refine ⟨rfl, fun hnone => ?_, fun j hj => ?_, fun j p hs hp hpq => ?_, fun j p hs hpq => ?_,
    fun j hs => ?_⟩
  · rcases hm with ⟨hm, -⟩ | ⟨-, hfree⟩
    · exact absurd (hm.symm.trans hnone) (by simp)
    · exact hfree
  · rcases hm with ⟨hm, hp⟩ | ⟨hm, -⟩
    · have hjk : k = j := Option.some.inj (hm.symm.trans hj)
      subst hjk
      refine ⟨?_, hp, ?_, hq⟩
      · rw [Clients.set_self]
      · rw [Clients.object, Clients.set_self]
        rfl
    · exact absurd (hm.symm.trans hj) (by simp)
  · by_cases hj : j = k
    · subst hj
      rw [Clients.set_self] at hs
      cases hs
      exact (hm.resolve_right fun hfree => hp hfree.2).1
    · -- no other thread is past its constructor
      rw [hclient j hj] at hs hpq
      exact absurd (hk j (h.exclusive j p hs hp hpq)) hj
  · by_cases hj : j = k
    · subst hj
      rw [Clients.set_self] at hpq
      exact absurd (hq.symm.trans hpq) (by simp)
    · rw [hclient j hj] at hs hpq
      exact h.null j p hs hpq
  · by_cases hj : j = k
    · subst hj
      rw [Clients.set_self] at hs
      cases hs
    · rw [hclient j hj] at hs ⊢
      exact h.entering j hs

end Shows

/-- The runs in which fewer than 2^32 checks are outstanding, and no object is destroyed
with checks added after its last `Wait`. -/
def quietClients (eval : T → Bool) (nBatchSize : UInt32) :
    Machine (Clients T ι κ) (ClientAct T ι κ) :=
  (clients eval nBatchSize).guarded fun s a t =>
    t.pool.bounded &&
      match a with
      | .call k .destroy => !(s.client k).object.pqueue || finished (s.client k).calls
      | _ => true

/-- **Any number of threads are one master** that constructs one object after the other. -/
theorem clients_simulates (eval : T → Bool) (nBatchSize : UInt32) :
    Machine.SimulatesBy (quietClients (ι := ι) (κ := κ) eval nBatchSize)
      (quietControl eval nBatchSize) Shows where
  init := ⟨rfl, fun _ => rfl, fun k hk => (by cases hk), fun k p hp hne => (by cases hp; cases hne rfl),
    fun k p hp _ => (by cases hp; exact Or.inl rfl), fun k hk => (by cases hk)⟩
  step s a t c h ht := by
    obtain ⟨hstep, hguard⟩ := Machine.guarded_step.mp ht
    obtain ⟨hbound, hquiet⟩ := Bool.and_eq_true_iff.mp hguard
    cases clientStep_cases hstep with
    | construct k pqueue hk =>
      refine ⟨c, .refl c, h.other ?_ ?_ ?_ ?_⟩
      · intro hm
        obtain ⟨hs, hp, -⟩ := h.locked k hm
        rw [hk] at hs
        exact hp (Stage.inside.inj hs).symm
      · intro p hs hq
        cases hq
        cases hs
      · intro p hs hq
        cases hq
        cases hs
        exact Or.inr rfl
      · intro hs
        cases pqueue with
        | false => cases hs
        | true => exact ⟨rfl, rfl⟩
    | lock k hk hm =>
      obtain ⟨hobject, hcalls⟩ := h.entering k hk
      let o : Control T ι := ⟨s.pool, ⟨true, false⟩, .idle, []⟩
      have hstep : (quietControl eval nBatchSize).step c (.construct true) = some o := by
        refine Machine.guarded_step.mpr ⟨?_, ?_⟩
        · simp only [control, Control.step, h.unlocked hm, h.pool_eq, o]
        · rw [Bool.and_true]
          exact hbound
      refine ⟨o, .step hstep, ?_⟩
      rw [hobject, hcalls]
      exact h.alone (o := o) (by simp [hm]) rfl (Or.inl ⟨rfl, by simp [o]⟩)
    | call k a p o hk ho =>
      by_cases hq : (s.client k).object.pqueue = true
      · obtain ⟨hp, hq', hfree⟩ := ClientCall.step_queue ho hq
        have hm := h.exclusive k p hk hp hq
        obtain ⟨hs, -, hc, -⟩ := h.locked k hm
        have hphase : p = c.phase := Stage.inside.inj (hk.symm.trans hs)
        subst hphase
        rw [← hc] at ho
        refine ⟨o, .step (a := a.act) (Machine.guarded_step.mpr ⟨ho, ?_⟩), ?_⟩
        · rw [Bool.and_eq_true_iff]
          refine ⟨hbound, ?_⟩
          cases a with
          | destroy =>
            rw [hc]
            exact hquiet
          | _ => rfl
        · refine h.alone (fun j hj => Option.some.inj (hj.symm.trans hm)) hq' ?_
          by_cases hu : a.unlocks = true
          · exact Or.inr ⟨if_pos hu, hfree.mpr hu⟩
          · exact Or.inl ⟨(if_neg hu).trans hm, mt hfree.mp hu⟩
      · have hq := Bool.eq_false_iff.mpr hq
        obtain ⟨hpool, hq', hp', hu⟩ := ClientCall.step_null ho hq (h.null k p hk hq)
        refine ⟨c, .refl c, ?_⟩
        have hsame : ({ s with
            pool := o.pool
            controlMutex := if a.unlocks then none else s.controlMutex } : Clients T ι κ) = s := by
          rw [hpool, hu]
          rfl
        rw [hsame]
        refine h.other ?_ ?_ ?_ ?_
        · intro hm
          obtain ⟨-, -, hc, hqueue⟩ := h.locked k hm
          rw [hc] at hqueue
          exact absurd (hqueue.symm.trans hq) (by simp)
        · intro p' _ hqueue
          exact absurd (hq'.symm.trans hqueue) (by simp)
        · intro p' hs _
          cases hs
          exact hp'
        · intro hs
          cases hs
    | thread a pool ha hs =>
      let o : Control T ι := { c with pool := pool }
      have hstep : (quietControl eval nBatchSize).step c (.thread a) = some o := by
        refine Machine.guarded_step.mpr ⟨?_, ?_⟩
        · simp only [control, Control.step, ha, h.pool_eq, hs, if_true, Option.map_some, o]
        · rw [Bool.and_true]
          exact hbound
      refine ⟨o, .step hstep, rfl, h.unlocked, fun k hk => ?_, h.exclusive, h.null, h.entering⟩
      obtain ⟨hstage, hp, hc, hq⟩ := h.locked k hk
      refine ⟨hstage, hp, ?_, hq⟩
      change ({ c with pool := pool } : Control T ι) = _
      rw [hc]
      rfl

/-! ## What the threads see -/

/-- When no check is expected, every one has been taken and reported. -/
theorem finished_of_expected {c : Control T ι} (hc : (quietControl eval nBatchSize).Reachable c)
    (he : c.expected = []) : c.pool.Finished := by
  have hr := pool_reachable hc
  have ha := (tracks_of_reachable hc).added_eq
  rw [he, Multiset.coe_nil] at ha
  have hout := outstanding_of_added hr ha
  obtain ⟨hq, hpend⟩ := pending_eq_zero hout
  refine ⟨hq, ?_, hpend⟩
  rw [(ledger_of_reachable hr.of_guarded).nTodo_eq, hout]
  rfl

/-- A `Wait` that was called is in `Loop` or about to return. -/
theorem waits_of_reachable {c : Control T ι} (hc : (control eval nBatchSize).Reachable c)
    (hp : c.phase = .inWait ∨ c.phase = .inDestructor) : (c.pool.ctl none).inWait := by
  refine hc.invariant (I := fun c => c.phase = .inWait ∨ c.phase = .inDestructor →
    (c.pool.ctl none).inWait) (fun h => by rcases h with h | h <;> cases h) ?_ hp
  intro c a d hI hd hp'
  have hgoto : ∀ p : Pool T ι, c.pool.step eval (.enter none) = some p → (p.ctl none).inWait := by
    intro p hs
    cases step_cases hs with
    | enter _ hout =>
      rw [goto_ctl_self]
      exact Or.inl rfl
  cases controlStep_cases hd with
  | wait p _ _ hs => exact hgoto p hs
  | destroyWait p _ _ _ hs => exact hgoto p hs
  | thread b p hb hs => exact (step_cases hs).waits hb (hI hp')
  | add _ _ p hidle _ _ => simp [hidle] at hp'
  | addNull _ _ hidle _ => simp [hidle] at hp'
  | waitNull hidle _ => simp [hidle] at hp'
  | construct _ _ => rcases hp' with h | h <;> cases h
  | waitReturns _ _ _ => rcases hp' with h | h <;> cases h
  | destructorReturns _ _ _ => rcases hp' with h | h <;> cases h
  | destroyDone _ _ _ => rcases hp' with h | h <;> cases h
  | destroyNull _ _ => rcases hp' with h | h <;> cases h
  | release _ => rcases hp' with h | h <;> cases h

/-- An object on the queue can end its phase, or a thread in `Loop` can go on. -/
theorem goes_on {c : Control T ι} (hc : (quietControl eval nBatchSize).Reachable c)
    (hp : c.phase ≠ .free) (hq : c.object.pqueue = true) :
    (∃ (a : ClientCall T ι) (d : Control T ι), c.step eval a.act = some d) ∨
      ∃ t p, c.pool.step eval (.lock t) = some p ∨ c.pool.step eval (.exec t) = some p := by
  have hwait : c.phase = .inWait ∨ c.phase = .inDestructor →
      (∃ (a : ClientCall T ι) (d : Control T ι), c.step eval a.act = some d) ∨
        ∃ t p, c.pool.step eval (.lock t) = some p ∨ c.pool.step eval (.exec t) = some p := by
    intro hphase
    rcases waits_of_reachable hc.of_guarded hphase with hin | ⟨r, hr⟩
    · exact Or.inr (step_of_inLoop (pool_reachable hc).of_guarded hin)
    · refine Or.inl ⟨.waitReturns, ?_⟩
      have hleave : c.pool.step eval .leave =
          some (Pool.goto { c.pool with session := .empty } none .outside) := by
        simp [Pool.step, hr]
      rcases hphase with hphase | hphase
      · simp [ClientCall.act, Control.step, hphase, hleave]
      · simp [ClientCall.act, Control.step, hphase, hleave]
  cases hphase : c.phase with
  | free => exact absurd hphase hp
  | idle =>
    refine Or.inl ⟨.destroy, ?_⟩
    have hout := (tracks_of_reachable hc).outside (by simp [hphase]) (by simp [hphase])
    have henter : c.pool.step eval (.enter none) = some (c.pool.goto none (.top 0 true)) := by
      simp [Pool.step, hout]
    cases hd : c.object.fDone with
    | true => simp [ClientCall.act, Control.step, hphase, hq, hd]
    | false => simp [ClientCall.act, Control.step, Control.callWait, hphase, hq, hd, henter]
  | inWait => exact hwait (Or.inl hphase)
  | inDestructor => exact hwait (Or.inr hphase)
  | releasing => exact Or.inl ⟨.release, by simp [ClientCall.act, Control.step, hphase]⟩

/-- `k` is between the lock and the unlock of `ControlMutex`. -/
def Clients.Inside (s : Clients T ι κ) (k : κ) : Prop :=
  ∃ p, (s.client k).stage = .inside p ∧ p ≠ .free ∧ (s.client k).object.pqueue = true

/-- **Sessions are isolated.** However many threads use the queue, at most one has an
object past its constructor, and the queue is finished whenever `ControlMutex` is free or
about to be; the result of a `Wait` is about the checks that were added through its own
object since the `Wait` before. The thread that has locked `ControlMutex` can always go
on, or a thread in `Loop` can. -/
theorem sessions_isolated (eval : T → Bool) (nBatchSize : UInt32) (s : Clients T ι κ)
    (hs : (quietClients eval nBatchSize).Reachable s) :
    (∀ k, s.Inside k ↔ s.controlMutex = some k) ∧
    (s.controlMutex = none → s.pool.Finished) ∧
    (∀ k, (s.client k).stage = .inside .releasing → s.pool.Finished) ∧
    (∀ k, (s.client k).stage = .inside .inWait ∨ (s.client k).stage = .inside .inDestructor →
      ∀ r, s.pool.ctl none = .returned r →
        (r = true ↔ ∀ c ∈ sinceWait (s.client k).calls, eval c = true)) ∧
    ∀ k, s.controlMutex = some k →
      (∃ a t, (clients eval nBatchSize).step s (.call k a) = some t) ∨
        ∃ w t, (clients eval nBatchSize).step s (.thread (.lock w)) = some t ∨
          (clients eval nBatchSize).step s (.thread (.exec w)) = some t := by
  obtain ⟨c, hc, h⟩ := (clients_simulates eval nBatchSize).reachable hs
  -- a thread in a phase that only objects with a queue have is the one that `c` shows
  have hshown : ∀ k p, (s.client k).stage = .inside p → p ≠ .free → p ≠ .idle →
      c.phase = p ∧ c = s.object k p := by
    intro k p hk hfree hidle
    have hq : (s.client k).object.pqueue = true := by
      by_contra hq
      rcases h.null k p hk (Bool.eq_false_iff.mpr hq) with hp | hp
      · exact hfree hp
      · exact hidle hp
    obtain ⟨hstage, -, hobject, -⟩ := h.locked k (h.exclusive k p hk hfree hq)
    have hphase : c.phase = p := Stage.inside.inj (hstage.symm.trans hk)
    rw [hphase] at hobject
    exact ⟨hphase, hobject⟩
  refine ⟨fun k => ⟨?_, fun hk => ?_⟩, fun hm => ?_, fun k hk => ?_, fun k hk r hr => ?_,
    fun k hk => ?_⟩
  · rintro ⟨p, hk, hp, hq⟩
    exact h.exclusive k p hk hp hq
  · obtain ⟨hstage, hp, hobject, hq⟩ := h.locked k hk
    rw [hobject] at hq
    exact ⟨c.phase, hstage, hp, hq⟩
  · rw [← h.pool_eq]
    exact finished_of_expected hc (by simp [Control.expected, h.unlocked hm])
  · obtain ⟨hphase, -⟩ := hshown k _ hk (by simp) (by simp)
    rw [← h.pool_eq]
    exact finished_of_expected hc (by simp [Control.expected, hphase])
  · have hphase : ∃ p, (p = .inWait ∨ p = .inDestructor) ∧ c.phase = p ∧ c = s.object k p := by
      rcases hk with hk | hk
      · exact ⟨_, Or.inl rfl, hshown k _ hk (by simp) (by simp)⟩
      · exact ⟨_, Or.inr rfl, hshown k _ hk (by simp) (by simp)⟩
    obtain ⟨p, hp, hcp, hobject⟩ := hphase
    rw [← h.pool_eq] at hr
    have hresult := returned_of_inWait hc (by rw [hcp]; exact hp) hr
    rw [hobject] at hresult
    exact hresult
  · obtain ⟨hstage, hp, hobject, hq⟩ := h.locked k hk
    rcases goes_on hc hp hq with ⟨a, d, hd⟩ | ⟨w, p, hstep⟩
    · rw [hobject] at hd
      refine Or.inl ⟨a, ?_⟩
      simp [clients, Clients.step, hstage, hd]
    · refine Or.inr ⟨w, { s with pool := p }, ?_⟩
      rw [h.pool_eq] at hstep
      rcases hstep with hstep | hstep
      · exact Or.inl (by simp [clients, Clients.step, Act.inLoop, hstep])
      · exact Or.inr (by simp [clients, Clients.step, Act.inLoop, hstep])

/-- The second thread waits for the first to destroy its object, and then its `Wait` does
not see the failure of the first. -/
theorem sessions_isolated_second :
    ∃ s : Clients Bool (Fin 1) (Fin 2), s.pool.ctl none = .returned true ∧
      sinceWait (s.client 1).calls = [true] ∧
      (true = true ↔ ∀ c ∈ sinceWait (s.client 1).calls, id c = true) := by
  have h : ((quietClients (ι := Fin 1) (κ := Fin 2) id 128).run (quietClients id 128).init
      [.construct 0 true, .construct 1 true, .lock 0, .call 0 (.add [false] none),
        .call 0 .destroy, .thread (.lock none), .thread (.exec none), .thread (.exec none),
        .thread (.lock none), .call 0 .waitReturns, .call 0 .release, .lock 1,
        .call 1 (.add [true] none), .call 1 .wait, .thread (.lock none), .thread (.exec none),
        .thread (.exec none), .thread (.lock none)]).map
      (fun s => decide (s.pool.ctl none = .returned true ∧
        sinceWait (s.client 1).calls = [true] ∧ (s.client 1).stage = .inside .inWait)) =
          some true := by decide
  obtain ⟨s, hs, hp⟩ := Machine.reachable_of_run h
  obtain ⟨hr, hcalls, hstage⟩ := of_decide_eq_true hp
  exact ⟨s, hr, hcalls, (sessions_isolated id 128 s hs).2.2.2.1 1 (Or.inl hstage) true hr⟩

end

end LearnFramework.CheckQueue
