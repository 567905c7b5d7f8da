import LearnFramework.CheckQueue.Control

/-!
# The `threadControl` program

`main` of `boostthreadcontrol`, with `N` worker threads and `B` batches of one
check. The local objects are a thread group, a queue of batch size 128 and a
control object; a worker can enter `Loop` only once its thread is created. After
`control.Wait()` the function ends, and the control object, the queue and the
thread group are destroyed while the created threads go on.

A worker returns from `Loop` only with `fQuit` set, and nothing sets it
(`Ledger.fQuit_eq`).
-/

namespace LearnFramework.CheckQueue

open Machines Families Pool

/-- A check without data. -/
structure TaskCheck where
  deriving DecidableEq, Repr

/-- `operator()`, less the line it prints. -/
def TaskCheck.call (_ : TaskCheck) : Bool := true

inductive MainPc where
  /-- constructing the local objects -/
  | locals
  /-- in the loop over `create_thread` -/
  | creating (i : Nat)
  /-- in the loop over `control.Add(vChecks)` -/
  | adding (i : Nat)
  /-- in `control.Wait()` -/
  | waiting
  /-- destroying the local objects -/
  | destroying
  deriving DecidableEq, Repr

structure MainState (N : Nat) where
  pc : MainPc
  control : Control TaskCheck (Fin N)

/-- The number of threads created so far. -/
def MainPc.created (N : Nat) : MainPc → Nat
  | .locals => 0
  | .creating i => i
  | _ => N

inductive MainAct (N : Nat) where
  /-- the next statement of `main`; `pick` is the worker that `Add` wakes -/
  | main (pick : Option (Fin N))
  | thread (a : Act TaskCheck (Fin N))

/-- A thread that is not created cannot enter `Loop`. -/
def canRun {N : Nat} (created : Nat) : Act TaskCheck (Fin N) → Bool
  | .enter (some w) => w.val < created
  | _ => true

namespace MainState

variable {N : Nat}

/-- A call on the control object, after which `main` is at `pc`. -/
def call (s : MainState N) (a : ControlAct TaskCheck (Fin N)) (pc : MainPc) :
    Option (MainState N) :=
  (s.control.step TaskCheck.call a).map fun control => ⟨pc, control⟩

def step (B : Nat) (s : MainState N) : MainAct N → Option (MainState N)
  | .main pick =>
    match s.pc with
    | .locals => s.call (.construct true) (.creating 0)
    | .creating i => some { s with pc := if i < N then .creating (i + 1) else .adding 0 }
    | .adding i =>
      if i < B then s.call (.add [TaskCheck.mk] pick) (.adding (i + 1)) else s.call .wait .waiting
    | .waiting => s.call .waitReturns .destroying
    | .destroying => none
  | .thread a => if canRun (s.pc.created N) a then s.call (.thread a) s.pc else none

end MainState

def mainProgram (N B : Nat) : Machine (MainState N) (MainAct N) where
  init := ⟨.locals, (control TaskCheck.call 128).init⟩
  step := MainState.step B

variable {N B : Nat}

/-- `main` and the threads it creates drive the pool only through its own steps. -/
theorem mainProgram_simulates (N B : Nat) :
    Machine.Simulates (mainProgram N B) (control TaskCheck.call 128) MainState.control where
  init := rfl
  step s a t h := by
    have hcall : ∀ {b : ControlAct TaskCheck (Fin N)} {pc : MainPc}, s.call b pc = some t →
        ∃ b, (control TaskCheck.call 128).step s.control b = some t.control := by
      intro b pc hb
      obtain ⟨c, hc, rfl⟩ := Option.map_eq_some_iff.mp hb
      exact ⟨b, hc⟩
    cases a with
    | main pick =>
      simp only [mainProgram, MainState.step] at h
      split at h
      · exact Or.inr (hcall h)
      · cases h
        exact Or.inl rfl
      · split at h
        · exact Or.inr (hcall h)
        · exact Or.inr (hcall h)
      · exact Or.inr (hcall h)
      · cases h
    | thread a =>
      simp only [mainProgram, MainState.step] at h
      split at h
      · exact Or.inr (hcall h)
      · cases h

/-- No worker ever returns from `Loop`. -/
theorem worker_not_returned {s : MainState N} (hs : (mainProgram N B).Reachable s) (w : Fin N)
    (r : Bool) : s.control.pool.ctl (some w) ≠ .returned r := by
  have hc := (mainProgram_simulates N B).reachable hs
  have hl := ledger_of_reachable ((control_simulates TaskCheck.call 128).reachable hc)
  intro hr
  have hlo := hl.localOk (some w)
  rw [hr] at hlo
  exact hlo

/-! ## Some run reaches the end of `main` -/

theorem main_reaches_of_loop {p p' : Pool TaskCheck (Fin N)} (s : MainState N)
    (hpc : s.pc = .waiting) (h : (loop TaskCheck.call 128).Reaches p p') :
    (mainProgram N B).Reaches { s with control := { s.control with pool := p } }
      { s with control := { s.control with pool := p' } } := by
  refine Machine.Reaches.map (f := fun p => { s with control := { s.control with pool := p } })
    (fun p a q hq => ?_) h
  obtain ⟨hs, ha⟩ := Machine.guarded_step.mp hq
  have hs' : p.step TaskCheck.call a = some q := hs
  have hrun : canRun N a = true := by
    cases a with
    | enter t => cases t <;> simp [canRun]
    | _ => rfl
  refine Or.inr ⟨.thread a, ?_⟩
  simp [mainProgram, MainState.step, MainState.call, Control.step, hpc, MainPc.created, hrun, ha,
    hs']

/-- No worker has run, and the control object is between two calls. -/
structure Unscheduled (N B : Nat) (pc : MainPc) (s : MainState N) : Prop where
  reachable : (mainProgram N B).Reachable s
  pc_eq : s.pc = pc
  phase_eq : s.control.phase = .idle
  object_eq : s.control.object = ⟨true, false⟩
  master : s.control.pool.ctl none = .outside
  workers : WorkersOutside s.control.pool

theorem unscheduled_creating (N B i : Nat) (hi : i ≤ N) :
    ∃ s, Unscheduled N B (.creating i) s := by
  induction i with
  | zero =>
    have hstep : (mainProgram N B).step (mainProgram N B).init (.main none) =
        some ⟨.creating 0, { (control TaskCheck.call 128).init with
          object := ⟨true, false⟩, phase := .idle }⟩ := rfl
    exact ⟨_, Machine.Reachable.init.step hstep, rfl, rfl, rfl, rfl, fun _ => rfl⟩
  | succ i ih =>
    obtain ⟨s, hs⟩ := ih (by omega)
    have hstep : (mainProgram N B).step s (.main none) =
        some { s with pc := .creating (i + 1) } := by
      simp [mainProgram, MainState.step, hs.pc_eq, show i < N by omega]
    exact ⟨_, hs.reachable.step hstep, rfl, hs.phase_eq, hs.object_eq, hs.master, hs.workers⟩

theorem unscheduled_adding (N B i : Nat) (hi : i ≤ B) : ∃ s, Unscheduled N B (.adding i) s := by
  induction i with
  | zero =>
    obtain ⟨s, hs⟩ := unscheduled_creating N B N le_rfl
    have hstep : (mainProgram N B).step s (.main none) = some { s with pc := .adding 0 } := by
      simp [mainProgram, MainState.step, hs.pc_eq]
    exact ⟨_, hs.reachable.step hstep, rfl, hs.phase_eq, hs.object_eq, hs.master, hs.workers⟩
  | succ i ih =>
    obtain ⟨s, hs⟩ := ih (by omega)
    obtain ⟨p, hp, -, hm, hw⟩ :=
      add_enabled TaskCheck.call s.control.pool [TaskCheck.mk] hs.master hs.workers
    have hstep : (mainProgram N B).step s (.main none) =
        some ⟨.adding (i + 1), { s.control with
          pool := p, calls := s.control.calls ++ [.add [TaskCheck.mk]] }⟩ := by
      simp [mainProgram, MainState.step, MainState.call, Control.step, hs.pc_eq, hs.phase_eq,
        hs.object_eq, show i < B by omega, hp]
    exact ⟨_, hs.reachable.step hstep, rfl, hs.phase_eq, hs.object_eq, hm, hw⟩

/-- The master does all the checks, and `main` ends before any worker is scheduled. -/
theorem destroying_reachable (N B : Nat) :
    ∃ s, (mainProgram N B).Reachable s ∧ s.pc = .destroying ∧ WorkersOutside s.control.pool := by
  obtain ⟨s, hs⟩ := unscheduled_adding N B B le_rfl
  have hc := (mainProgram_simulates N B).reachable hs.reachable
  have hl := ledger_of_reachable ((control_simulates TaskCheck.call 128).reachable hc)
  have henter : s.control.pool.step TaskCheck.call (.enter none) =
      some (s.control.pool.goto none (.top 0 true)) := by
    simp [Pool.step, hs.master]
  obtain ⟨p, r, hr, hret, hq, hw⟩ := master_returns TaskCheck.call 128
    (s.control.pool.goto none (.top 0 true)) 0 true (hl.step (step_cases henter))
    (goto_ctl_self ..) hs.workers.goto
  let s₁ : MainState N := ⟨.waiting, { s.control with
    pool := s.control.pool.goto none (.top 0 true), phase := .inWait }⟩
  have h₁ : (mainProgram N B).step s (.main none) = some s₁ := by
    simp [s₁, mainProgram, MainState.step, MainState.call, Control.step, Control.callWait,
      hs.pc_eq, hs.phase_eq, hs.object_eq, henter]
  have h₂ : (mainProgram N B).step { s₁ with control := { s₁.control with pool := p } }
      (.main none) = some ⟨.destroying, { s₁.control with
        pool := Pool.goto { p with session := .empty } none .outside
        object := { s.control.object with fDone := true }
        phase := .idle
        calls := s.control.calls ++ [.wait] }⟩ := by
    simp [s₁, mainProgram, MainState.step, MainState.call, Control.step, Pool.step, hret]
  exact ⟨_, ((hs.reachable.step h₁).trans (main_reaches_of_loop s₁ rfl hr)).tail h₂, rfl, hw.goto⟩

/-- **The pool outlives `main`.** All workers have returned from `Loop` whenever
the local objects are being destroyed exactly when there are no workers. -/
theorem workers_returned_iff (N B : Nat) :
    (∀ s, (mainProgram N B).Reachable s → s.pc = .destroying →
      ∀ w, ∃ r, s.control.pool.ctl (some w) = .returned r) ↔ N = 0 := by
  constructor
  · intro h
    by_contra hN
    obtain ⟨s, hs, hpc, -⟩ := destroying_reachable N B
    obtain ⟨r, hr⟩ := h s hs hpc ⟨0, Nat.pos_of_ne_zero hN⟩
    exact worker_not_returned hs _ r hr
  · rintro rfl s - - w
    exact w.elim0

/-- With 5 threads and 20 batches the workers can all still be about to enter `Loop`. -/
theorem workers_outside_at_end :
    ¬∀ s, (mainProgram 5 20).Reachable s → s.pc = .destroying →
      ∀ w, ∃ r, s.control.pool.ctl (some w) = .returned r := by
  intro h
  obtain ⟨s, hs, hpc, hw⟩ := destroying_reachable 5 20
  obtain ⟨r, hr⟩ := h s hs hpc 0
  rw [hw 0] at hr
  cases hr

end LearnFramework.CheckQueue
