import LearnFramework.CheckQueue.Ledger
import Mathlib.Data.Fintype.BigOperators

/-!
# The counters of the pool

`nIdle` is the number of threads inside `cond.wait`, `nTotal` that of the threads that
have made their first turn and have not returned. A turn is a first one exactly when
`nNow` is 0, since no batch is empty. So the divisor of a batch decision is at least 1,
and `nNow` lies between 1 and what the queue and the batch size allow. The counters are of
type `int` and so is their sum: it fits with at most 2^30 - 2 workers (`counters`), and
with one more it need not (`divisor_overflows`).
-/

namespace LearnFramework.CheckQueue

open Machines Families

variable {T ι : Type*}

namespace Ctl

/-- In `cond.wait`, without the mutex. -/
def idle : Ctl T → Bool
  | .waiting => true
  | .woken => true
  | _ => false

/-- The first turn has been made, and `Loop` has not returned. -/
def entered : Ctl T → Bool
  | .outside => false
  | .top nNow _ => nNow ≠ 0
  | .returned _ => false
  | _ => true

@[simp] theorem wake_idle (c : Ctl T) : c.wake.idle = c.idle := by cases c <;> rfl

@[simp] theorem wake_entered (c : Ctl T) : c.wake.entered = c.entered := by cases c <;> rfl

end Ctl

variable [Fintype ι]

structure Counters (nBatchSize : UInt32) (s : Pool T ι) : Prop where
  nIdle_eq : s.q.nIdle = Int32.ofNat (count Ctl.idle s.ctl)
  nTotal_eq : s.q.nTotal = Int32.ofNat (count Ctl.entered s.ctl)
  nBatchSize_eq : s.q.nBatchSize = nBatchSize

namespace Counters

open Pool

variable {nBatchSize : UInt32}

/-- Notifications do not touch the counters. -/
theorem wake {s : Pool T ι} (h : Counters nBatchSize s) {ctl : Option ι → Ctl T}
    (hc : ∀ i, ctl i = s.ctl i ∨ ctl i = (s.ctl i).wake) :
    Counters nBatchSize ⟨s.q, ctl, s.session⟩ := by
  refine ⟨h.nIdle_eq.trans ?_, h.nTotal_eq.trans ?_, h.nBatchSize_eq⟩
  · rw [count, count, total_of_wake (fun c => by rw [Ctl.wake_idle]) hc]
  · rw [count, count, total_of_wake (fun c => by rw [Ctl.wake_entered]) hc]

/-- An `int` that counts follows the count when both change by the same amount. -/
theorem follow {n n' : Int32} {a b k k' : Nat} (h : n = Int32.ofNat k) (hk : k' + a = k + b)
    (hn : n' + Int32.ofNat a = n + Int32.ofNat b) : n' = Int32.ofNat k' := by
  have hcast : Int32.ofNat k' + Int32.ofNat a = Int32.ofNat k + Int32.ofNat b := by
    rw [← Int32.ofNat_add, ← Int32.ofNat_add, hk]
  rw [h, ← hcast] at hn
  exact (Int32.add_left_inj _).mp hn

variable [DecidableEq ι]

/-- One thread moves, and the counters follow it. -/
theorem move {s : Pool T ι} (h : Counters nBatchSize s) {q : CCheckQueue T} {session : Session T}
    {t : Option ι} {c : Ctl T}
    (hi : q.nIdle + Int32.ofNat (s.ctl t).idle.toNat = s.q.nIdle + Int32.ofNat c.idle.toNat)
    (ht : q.nTotal + Int32.ofNat (s.ctl t).entered.toNat =
      s.q.nTotal + Int32.ofNat c.entered.toNat)
    (hb : q.nBatchSize = s.q.nBatchSize) :
    Counters nBatchSize (Pool.goto ⟨q, s.ctl, session⟩ t c) := by
  have hidle : count Ctl.idle (Pool.goto ⟨q, s.ctl, session⟩ t c).ctl + (s.ctl t).idle.toNat =
      count Ctl.idle s.ctl + c.idle.toNat := count_update ..
  have hentered : count Ctl.entered (Pool.goto ⟨q, s.ctl, session⟩ t c).ctl +
      (s.ctl t).entered.toNat = count Ctl.entered s.ctl + c.entered.toNat := count_update ..
  exact ⟨follow h.nIdle_eq hidle hi, follow h.nTotal_eq hentered ht, hb.trans h.nBatchSize_eq⟩

/-- One thread moves between points that count the same. -/
theorem keep {s : Pool T ι} (h : Counters nBatchSize s) {q : CCheckQueue T} {session : Session T}
    {t : Option ι} {c : Ctl T} (hi : q.nIdle = s.q.nIdle) (ht : q.nTotal = s.q.nTotal)
    (hb : q.nBatchSize = s.q.nBatchSize) (hidle : c.idle = (s.ctl t).idle)
    (hentered : c.entered = (s.ctl t).entered) :
    Counters nBatchSize (Pool.goto ⟨q, s.ctl, session⟩ t c) :=
  h.move (by rw [hi, hidle]) (by rw [ht, hentered]) hb

theorem acquire {s s' : Pool T ι} {t : Option ι} (h : Counters nBatchSize s)
    (ha : Acquire s t s') : Counters nBatchSize s' := by
  cases ha with
  | first fOk hc =>
    refine h.move ?_ ?_ rfl
    · simp [hc, Ctl.idle]
    · simp [hc, Ctl.entered]
  | report n fOk hc hn hw =>
    refine h.move ?_ ?_ ?_
    · simp [hc, CCheckQueue.cleanUp, hn, Ctl.idle]
    · simp [hc, CCheckQueue.cleanUp, hn, Ctl.entered]
    · simp [CCheckQueue.cleanUp, hn]
  | reportLast n fOk w hc hn hw hz =>
    subst hw
    have hc' : s.notifyMaster.ctl (some w) = .top n fOk :=
      (goto_ctl_of_ne s _ (by simp)).trans hc
    refine (h.wake s.notifyMaster_ctl).move ?_ ?_ ?_
    · simp [hc', CCheckQueue.cleanUp, hn, Ctl.idle]
    · simp [hc', CCheckQueue.cleanUp, hn, Ctl.entered]
    · simp [CCheckQueue.cleanUp, hn]
  | rewoken hc =>
    refine h.move ?_ ?_ rfl
    · simp [hc, Ctl.idle]
    · simp [hc, Ctl.entered]

theorem pass {s s' : Pool T ι} {t : Option ι} (h : Counters nBatchSize s)
    (hc : s.ctl t = .testing) (hp : Pass s t s') : Counters nBatchSize s' := by
  cases hp with
  | finish he hf hz =>
    refine h.move ?_ ?_ rfl
    · simp [hc, Ctl.idle]
    · simp [hc, Ctl.entered]
  | wait he hw =>
    refine h.move ?_ ?_ rfl
    · simp [hc, Ctl.idle]
    · simp [hc, Ctl.entered]
  | take rest batch hne hq hlen =>
    exact h.keep rfl rfl rfl (by rw [hc]; rfl) (by rw [hc]; rfl)

/-- One step keeps the counters. -/
theorem step {eval : T → Bool} {s s' : Pool T ι} {a : Act T ι} (h : Counters nBatchSize s)
    (hl : Ledger s) (hs : Step eval s a s') : Counters nBatchSize s' := by
  cases hs with
  | enter t hc => exact h.keep rfl rfl rfl (by rw [hc]; rfl) (by rw [hc]; rfl)
  | lock t s₁ _ ha hp => exact (h.acquire ha).pass ha.testing hp
  | wake t hc => exact h.keep rfl rfl rfl (by rw [hc]; rfl) (by rw [hc]; rfl)
  | check t c rest n hc => exact h.keep rfl rfl rfl (by rw [hc]; rfl) (by rw [hc]; rfl)
  | skip t c rest n hc => exact h.keep rfl rfl rfl (by rw [hc]; rfl) (by rw [hc]; rfl)
  | clear t n fOk hc =>
    have hlocal := hl.localOk t
    rw [hc] at hlocal
    exact h.keep rfl rfl rfl (by rw [hc]; rfl) (by simp [hc, Ctl.entered, hlocal.2])
  | add vChecks pick s₁ hc hn =>
    have hw := h.wake hn.ctl
    exact ⟨hw.nIdle_eq, hw.nTotal_eq, hw.nBatchSize_eq⟩
  | leave r hc => exact h.keep rfl rfl rfl (by rw [hc]; rfl) (by rw [hc]; rfl)

omit [DecidableEq ι] in
/-- The sum of the source, while neither counter has overflowed. -/
theorem divisor_eq {s : Pool T ι} (h : Counters nBatchSize s) :
    s.q.nTotal + s.q.nIdle + 1 =
      Int32.ofNat (count Ctl.entered s.ctl + count Ctl.idle s.ctl + 1) := by
  rw [h.nTotal_eq, h.nIdle_eq, Int32.ofNat_add, Int32.ofNat_add]
  rfl

omit [DecidableEq ι] in
/-- A thread that decides on a batch is not idle, so at most 2 * (workers + 1) are added. -/
theorem divisor_le {s : Pool T ι} {t : Option ι} (hc : s.ctl t = .testing) :
    count Ctl.entered s.ctl + count Ctl.idle s.ctl + 1 ≤ 2 * (Fintype.card ι + 1) := by
  have hidle : count Ctl.idle s.ctl < Fintype.card (Option ι) :=
    count_lt_card (i := t) (by rw [hc]; rfl)
  have hentered : count Ctl.entered s.ctl ≤ Fintype.card (Option ι) := count_le_card _ _
  rw [Fintype.card_option] at hidle hentered
  omega

end Counters

open Pool

variable [DecidableEq ι]

theorem counters_of_reachable {eval : T → Bool} {nBatchSize : UInt32} {s : Pool T ι}
    (hs : (pool eval nBatchSize).Reachable s) : Counters nBatchSize s := by
  refine hs.invariant_of_reachable ?_ fun s a t hr h ha =>
    h.step (ledger_of_reachable hr) (step_cases ha)
  have hidle : count Ctl.idle (fun _ : Option ι => (.outside : Ctl T)) = 0 :=
    total_eq_zero fun _ => rfl
  have hentered : count Ctl.entered (fun _ : Option ι => (.outside : Ctl T)) = 0 :=
    total_eq_zero fun _ => rfl
  exact ⟨by simp [pool, CCheckQueue.new, hidle], by simp [pool, CCheckQueue.new, hentered], rfl⟩

omit [DecidableEq ι] in
/-- The 32-bit counter shows the number of outstanding checks as it is. -/
theorem nTodo_toNat {s : Pool T ι} (h : Ledger s) (hout : s.outstanding < 2 ^ 32) :
    s.q.nTodo.toNat = s.outstanding := by
  rw [h.nTodo_eq, UInt32.toNat_ofNat', Nat.mod_eq_of_lt hout]

/-- What a thread is about to report is outstanding. -/
theorem pending_le_outstanding (s : Pool T ι) (t : Option ι) :
    (s.ctl t).pending ≤ s.outstanding := by
  have hleft : (Ctl.testing : Ctl T).pending = 0 := rfl
  have htotal := total_goto Ctl.pending s t .testing
  rw [hleft] at htotal
  rw [outstanding]
  omega

omit [DecidableEq ι] in
/-- A number of threads, shown by an `int`. -/
theorem toInt_count {p : Ctl T → Bool} {s : Pool T ι} (hι : Fintype.card ι < 2 ^ 30 - 1) :
    (Int32.ofNat (count p s.ctl)).toInt =
      (Finset.univ.filter fun t => p (s.ctl t) = true).card := by
  have hle : count p s.ctl ≤ Fintype.card (Option ι) := count_le_card _ _
  rw [Fintype.card_option] at hle
  rw [Int32.toInt_ofNat_of_lt (by omega), count_eq_card]

/-- **The counters.** With at most 2^30 - 2 workers they describe the threads in every
reachable state. A reported batch is never larger than `nTodo`, and a thread that has the
mutex and finds the queue not empty adds up the counters without an overflow, divides by a
positive number and takes between 1 and as many checks as the batch size and the queue
allow. -/
theorem counters (eval : T → Bool) (nBatchSize : UInt32) (hι : Fintype.card ι < 2 ^ 30 - 1)
    (s : Pool T ι) (hs : (pool eval nBatchSize).Reachable s) (hout : s.outstanding < 2 ^ 32) :
    s.q.nTodo.toNat = s.outstanding ∧
    s.q.nIdle.toInt = (Finset.univ.filter fun t => (s.ctl t).idle = true).card ∧
    s.q.nTotal.toInt = (Finset.univ.filter fun t => (s.ctl t).entered = true).card ∧
    (∀ t n fOk, s.ctl t = .top n fOk → n.toNat ≤ s.q.nTodo.toNat) ∧
    ∀ t s₁, s.acquire t = some s₁ → s₁.q.queue ≠ [] →
      (s₁.q.nTotal + s₁.q.nIdle + 1).toInt = s₁.q.nTotal.toInt + s₁.q.nIdle.toInt + 1 ∧
      0 < (s₁.q.nTotal + s₁.q.nIdle + 1).toInt ∧
      0 < (s₁.q.nTotal + s₁.q.nIdle + 1).toUInt32.toNat ∧
      1 ≤ s₁.q.nNow.toNat ∧
      s₁.q.nNow.toNat ≤ min (max 1 nBatchSize.toNat) s₁.q.queue.length ∧
      (takeBatch s₁.q.nNow.toNat s₁.q.queue).isSome = true := by
  have hcounters := counters_of_reachable hs
  have hnTodo := nTodo_toNat (ledger_of_reachable hs) hout
  refine ⟨hnTodo, ?_, ?_, fun t n fOk hc => ?_, fun t s₁ ha hne => ?_⟩
  · rw [hcounters.nIdle_eq, toInt_count hι]
  · rw [hcounters.nTotal_eq, toInt_count hι]
  · have hle := pending_le_outstanding s t
    rw [hc] at hle
    exact hle.trans_eq hnTodo.symm
  · have hacquire := acquire_cases ha
    have hcounters₁ := hcounters.acquire hacquire
    have hdivisor := Counters.divisor_le hacquire.testing
    have hlen := s₁.q.nNow_le hne
    have hbatch := s₁.q.nNow_le_nBatchSize
    rw [hcounters₁.nBatchSize_eq] at hbatch
    have hsum : (s₁.q.nTotal + s₁.q.nIdle + 1).toInt =
        (count Ctl.entered s₁.ctl + count Ctl.idle s₁.ctl + 1 : Nat) := by
      rw [hcounters₁.divisor_eq, Int32.toInt_ofNat_of_lt (by omega)]
    have hunsigned : (s₁.q.nTotal + s₁.q.nIdle + 1).toUInt32.toNat =
        count Ctl.entered s₁.ctl + count Ctl.idle s₁.ctl + 1 := by
      rw [hcounters₁.divisor_eq, Int32.toUInt32_ofNat', UInt32.toNat_ofNat',
        Nat.mod_eq_of_lt (by omega)]
    refine ⟨?_, by omega, by omega, s₁.q.nNow_pos, le_min hbatch hlen, ?_⟩
    · rw [hsum, hcounters₁.nTotal_eq, hcounters₁.nIdle_eq, Int32.toInt_ofNat_of_lt (by omega),
        Int32.toInt_ofNat_of_lt (by omega)]
      rfl
    · rw [takeBatch_eq _ _ hlen]
      rfl

/-- One worker is about to report its batch while the master waits. -/
theorem counters_sleeping_master :
    ∃ s : Pool Bool (Fin 1), s.ctl none = .waiting ∧ s.q.nTodo.toNat = s.outstanding ∧
      s.q.nIdle.toInt = (Finset.univ.filter fun t => (s.ctl t).idle = true).card ∧
      s.q.nTotal.toInt = (Finset.univ.filter fun t => (s.ctl t).entered = true).card := by
  have h : ((pool (ι := Fin 1) id 0).run (pool id 0).init
      [.enter (some 0), .lock (some 0), .add [true] (some 0), .lock (some 0), .enter none,
        .lock none, .exec (some 0), .exec (some 0)]).map
      (fun s => decide (s.ctl none = .waiting ∧ s.outstanding < 2 ^ 32)) = some true := by decide
  obtain ⟨s, hs, hp⟩ := Machine.reachable_of_run h
  obtain ⟨hc, hout⟩ := of_decide_eq_true hp
  obtain ⟨hnTodo, hnIdle, hnTotal, -⟩ := counters id 0 (by decide) s hs hout
  exact ⟨s, hc, hnTodo, hnIdle, hnTotal⟩

/-! ## One worker more -/

/-- The workers of a set have come, one after the other, and wait. By induction on the set. -/
theorem workers_wait (eval : T → Bool) (nBatchSize : UInt32) (S : Finset ι) :
    ∃ s : Pool T ι, (pool eval nBatchSize).Reachable s ∧ s.q.queue = [] ∧ s.q.fQuit = false ∧
      s.ctl none = .outside ∧ ∀ w, s.ctl (some w) = if w ∈ S then .waiting else .outside := by
  induction S using Finset.induction_on with
  | empty => exact ⟨_, .init, rfl, rfl, rfl, fun w => rfl⟩
  | insert w S hw ih =>
    obtain ⟨s, hs, hqueue, hquit, hmaster, hctl⟩ := ih
    have henter : (pool eval nBatchSize).step s (.enter (some w)) =
        some (s.goto (some w) (.top 0 true)) := by
      simp only [pool, step, hctl w, if_neg hw]
    have hwait : (pool eval nBatchSize).step (s.goto (some w) (.top 0 true)) (.lock (some w)) =
        some ((⟨{ s.q with nTotal := s.q.nTotal + 1, nIdle := s.q.nIdle + 1 }, s.ctl,
          s.session⟩ : Pool T ι).goto (some w) .waiting) := by
      simp [pool, step, Pool.acquire, Pool.pass, CCheckQueue.cleanUp, goto, hqueue, hquit]
    refine ⟨_, (hs.step henter).step hwait, hqueue, hquit, ?_, fun v => ?_⟩
    · rw [goto_ctl_of_ne _ _ (by simp)]
      exact hmaster
    · by_cases hv : v = w
      · subst hv
        rw [goto_ctl_self, if_pos (Finset.mem_insert_self _ _)]
      · rw [goto_ctl_of_ne _ _ (by simpa using hv)]
        simp only [hctl v, Finset.mem_insert, hv, false_or]

/-- Then the master adds one check, which wakes one of them, and calls `Wait`. -/
theorem master_comes (eval : T → Bool) (nBatchSize : UInt32) (check : T) (w : ι) :
    ∃ s : Pool T ι, (pool eval nBatchSize).Reachable s ∧ s.q.queue = [check] ∧
      s.ctl none = .top 0 true ∧
      ∀ v, s.ctl (some v) = .woken ∨ s.ctl (some v) = .waiting := by
  obtain ⟨s, hs, hqueue, -, hmaster, hctl⟩ := workers_wait eval nBatchSize (Finset.univ : Finset ι)
  simp only [Finset.mem_univ, if_true] at hctl
  let added : Pool T ι := (⟨s.q.add [check], s.ctl,
    { s.session with added := s.session.added + [check] }⟩ : Pool T ι).goto (some w) .woken
  have hadd : (pool eval nBatchSize).step s (.add [check] (some w)) = some added := by
    simp [pool, step, addBatch, hmaster, notifyOne, hctl w, Ctl.isWaiting, added]
  have hmaster' : added.ctl none = .outside := (goto_ctl_of_ne _ _ (by simp)).trans hmaster
  have henter : (pool eval nBatchSize).step added (.enter none) =
      some (added.goto none (.top 0 true)) := by
    simp only [pool, step, hmaster']
  refine ⟨_, (hs.step hadd).step henter, ?_, goto_ctl_self .., fun v => ?_⟩
  · simp [added, hqueue]
  · rw [goto_ctl_of_ne _ _ (by simp)]
    by_cases hv : v = w
    · subst hv
      exact Or.inl (goto_ctl_self ..)
    · exact Or.inr ((goto_ctl_of_ne _ _ (by simpa using hv)).trans (hctl v))

omit [DecidableEq ι] in
/-- When all workers are in `cond.wait`, each of them counts. -/
theorem count_of_workers {p : Ctl T → Bool} {s : Pool T ι}
    (h : ∀ w, s.ctl (some w) = .woken ∨ s.ctl (some w) = .waiting) (hwoken : p .woken = true)
    (hwaiting : p .waiting = true) :
    count p s.ctl = (p (s.ctl none)).toNat + Fintype.card ι := by
  have hall : ∀ w, p (s.ctl (some w)) = true := by
    intro w
    rcases h w with hw | hw
    · rw [hw]
      exact hwoken
    · rw [hw]
      exact hwaiting
  rw [count, total, Fintype.sum_option]
  simp [hall]

/-- At its batch decision the counters are as large as they can be. -/
theorem divisor_largest (eval : T → Bool) (nBatchSize : UInt32) (check : T) (w : ι) :
    ∃ s s₁ : Pool T ι, (pool eval nBatchSize).Reachable s ∧ s.outstanding < 2 ^ 32 ∧
      s.acquire none = some s₁ ∧ s₁.q.queue ≠ [] ∧ Counters nBatchSize s₁ ∧
      count Ctl.idle s₁.ctl = Fintype.card ι ∧
      count Ctl.entered s₁.ctl = Fintype.card ι + 1 := by
  obtain ⟨s, hs, hqueue, hmaster, hctl⟩ := master_comes (ι := ι) eval nBatchSize check w
  let decides : Pool T ι :=
    (⟨{ s.q with nTotal := s.q.nTotal + 1 }, s.ctl, s.session⟩ : Pool T ι).goto none .testing
  have hacquire : s.acquire none = some decides := by
    simp [Pool.acquire, hmaster, CCheckQueue.cleanUp, decides]
  have hctl' : ∀ v, decides.ctl (some v) = .woken ∨ decides.ctl (some v) = .waiting := by
    intro v
    rw [goto_ctl_of_ne _ _ (by simp)]
    exact hctl v
  have hself : decides.ctl none = .testing := goto_ctl_self ..
  refine ⟨s, decides, hs, ?_, hacquire, ?_, ?_, ?_, ?_⟩
  · have hpending : total Ctl.pending s.ctl = 0 := by
      refine total_eq_zero fun t => ?_
      cases t with
      | none => rw [hmaster]; rfl
      | some v =>
        rcases hctl v with hv | hv
        · rw [hv]; rfl
        · rw [hv]; rfl
    rw [outstanding, hpending, hqueue, List.length_singleton]
    omega
  · simp [decides, hqueue]
  · exact (counters_of_reachable hs).acquire (acquire_cases hacquire)
  · rw [count_of_workers hctl' rfl rfl, hself]
    exact Nat.zero_add _
  · rw [count_of_workers hctl' rfl rfl, hself]
    exact Nat.add_comm _ _

/-- With 2^30 - 1 workers the sum is 2^31, which is no `int`. -/
theorem divisor_overflows :
    ∃ s : Pool Bool (Fin (2 ^ 30 - 1)), (pool id 1).Reachable s ∧ s.outstanding < 2 ^ 32 ∧
      ∃ s₁, s.acquire none = some s₁ ∧ s₁.q.queue ≠ [] ∧
        s₁.q.nTotal.toInt + s₁.q.nIdle.toInt + 1 = 2 ^ 31 ∧
        ¬0 < (s₁.q.nTotal + s₁.q.nIdle + 1).toInt := by
  obtain ⟨s, s₁, hs, hout, hacquire, hne, hcounters, hidle, hentered⟩ :=
    divisor_largest (ι := Fin (2 ^ 30 - 1)) id 1 true ⟨0, by omega⟩
  rw [Fintype.card_fin] at hidle hentered
  refine ⟨s, hs, hout, s₁, hacquire, hne, ?_, ?_⟩
  · rw [hcounters.nTotal_eq, hcounters.nIdle_eq, hidle, hentered,
      Int32.toInt_ofNat_of_lt (by omega), Int32.toInt_ofNat_of_lt (by omega)]
    omega
  · rw [hcounters.divisor_eq, hidle, hentered]
    decide

end LearnFramework.CheckQueue
