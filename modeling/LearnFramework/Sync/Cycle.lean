import LearnFramework.Sync.Deadlock

/-!
# What the detector misses

`n` threads in a circle, each with a lock of its own. Every thread takes its lock and
then asks for the next one. The detector records `n` pairs, none of them in both
orders, and lets all the threads block each other, for every `n ≥ 3`.
-/

namespace LearnFramework.Sync

open Machines LockData Threads WaitFor

variable {n : Nat}

/-- The next thread of the circle. -/
def next (i : Fin n) : Fin n := ⟨(i.val + 1) % n, Nat.mod_lt _ i.pos⟩

theorem next_val (i : Fin n) : (next i).val = if i.val + 1 = n then 0 else i.val + 1 := by
  have hi := i.isLt
  change (i.val + 1) % n = _
  split
  · rename_i h
    rw [h, Nat.mod_self]
  · exact Nat.mod_eq_of_lt (by omega)

theorem next_ne (h : 2 ≤ n) (i : Fin n) : next i ≠ i := by
  rw [Ne, Fin.ext_iff, next_val]
  split <;> omega

theorem next_next_ne (h : 3 ≤ n) (i : Fin n) : next (next i) ≠ i := by
  rw [Ne, Fin.ext_iff, next_val, next_val]
  split <;> split <;> omega

/-- The lock of a thread. -/
def ownLock (i : Fin n) : Ptr := i.val + 1

theorem ownLock_inj {i j : Fin n} : ownLock i = ownLock j ↔ i = j := by
  rw [ownLock, ownLock, Nat.add_right_cancel_iff, Fin.val_inj]

def place : CLockLocation := ⟨"cs", "main.cpp", 1, false⟩

/-- `j` threads have taken their own lock, and `k` ask for the next one. -/
structure Stage (j k : Nat) (s : Threads (Fin n)) : Prop where
  alive : s.aborted = none
  available : s.lockdata.available = true
  orders : ∀ p, p ∈ s.lockdata.lockorders ↔
    ∃ i : Fin n, i.val < k ∧ p = (ownLock i, ownLock (next i))
  mutex : ∀ i : Fin n, s.mutex (ownLock i) = if i.val < j then .owned i 0 else .free
  point : ∀ i : Fin n,
    s.point i = if i.val < k then .locking (ownLock (next i)) else .running
  stack : ∀ i : Fin n, k ≤ i.val →
    s.lockstack i = if i.val < j then some [(ownLock i, place)] else none

theorem stage_new : Stage 0 0 (new : Threads (Fin n)) where
  alive := rfl
  available := rfl
  orders p := iff_of_false Std.TreeMap.not_mem_emptyc (by simp)
  mutex i := rfl
  point i := rfl
  stack i _ := rfl

/-- A push that no recorded pair contradicts goes through. -/
theorem enter_step {ι : Type*} [Fintype ι] [DecidableEq ι] {s : Threads ι} (t : ι) (cs : Ptr)
    (halive : s.aborted = none) (hp : s.point t = .running)
    (hav : s.lockdata.available = true)
    (hno : ∀ a ∈ ahead cs (s.lockstack t), (cs, a) ∉ s.lockdata.lockorders) :
    ∃ d, Recorded cs (pushed cs place (s.lockstack t)) (ahead cs (s.lockstack t))
        s.lockdata d ∧
      (threads ι).step s (.enter t place.mutexName place.sourceFile place.sourceLine cs false) =
        some ({ s with
          lockdata := d
          history := s.history ++ [Event.took cs (ahead cs (s.lockstack t))] }.withStack t
            (pushed cs place (s.lockstack t)) (.locking cs)) := by
  rcases pushLock_cases cs place (s.lockstack t) s.lockdata with
    ⟨d, hd, hr⟩ | ⟨e, -, a, ha, -, hs, -⟩
  · refine ⟨d, hr, ?_⟩
    have hrun : ¬s.aborted.isSome = true := by simp [halive]
    refine (if_neg hrun).trans ?_
    simp only [enter, hp, hav, and_self, if_true, enterCritical]
    change pushLock cs ⟨place.mutexName, place.sourceFile, place.sourceLine, false⟩
      (s.lockstack t) s.lockdata = _ at hd
    rw [hd]
    rfl
  · exact absurd (mem_of_getElem? hs) (hno a ha)

theorem ahead_nil (cs : Ptr) : ahead cs none = [] := rfl

theorem ahead_own {i : Fin n} {cs : Ptr} (h : ownLock i ≠ cs) :
    ahead cs (some [(ownLock i, place)]) = [ownLock i] := by
  change front cs [ownLock i] = _
  rw [front_cons_of_ne h, front_nil]

/-- The next thread takes its own lock. -/
theorem stage_take {j : Nat} {s : Threads (Fin n)} (hj : j < n) (h : Stage j 0 s) :
    ∃ s', (nestedThreads (Fin n)).Reaches s s' ∧ Stage (j + 1) 0 s' := by
  let t : Fin n := ⟨j, hj⟩
  have hstack : s.lockstack t = none := (h.stack t (Nat.zero_le _)).trans (if_neg (lt_irrefl j))
  obtain ⟨d, hr, henter⟩ := enter_step t (ownLock t) h.alive (h.point t) h.available
    (by rw [hstack, ahead_nil]; nofun)
  rw [hstack, ahead_nil] at hr henter
  have hfree : s.mutex (ownLock t) = .free := (h.mutex t).trans (if_neg (lt_irrefl j))
  have hlock := lock_step (s := { s with
      lockdata := d
      history := s.history ++ [Event.took (ownLock t) []] }.withStack t
        (pushed (ownLock t) place none) (.locking (ownLock t))) (t := t)
    (m := .owned t 0) h.alive (Function.update_self ..) (by
      change (s.mutex (ownLock t)).lock t = _
      rw [hfree]
      rfl)
  have hlt : ∀ i : Fin n, i ≠ t → (i.val < j + 1 ↔ i.val < j) := by
    intro i hi
    have hne : i.val ≠ j := fun hv => hi (Fin.ext hv)
    omega
  refine ⟨_, (Machine.Reaches.step (Machine.guarded_step.mpr ⟨henter, rfl⟩)).tail
    (Machine.guarded_step.mpr ⟨hlock, rfl⟩), ?_⟩
  refine ⟨h.alive, hr.available.trans h.available, fun p => ?_, fun i => ?_, fun i => ?_,
    fun i hi => ?_⟩
  · change p ∈ d.lockorders ↔ _
    rw [hr.mem, h.orders]
    simp
  · change Function.update s.mutex (ownLock t) _ (ownLock i) = _
    by_cases hit : i = t
    · rw [hit, Function.update_self, if_pos (Nat.lt_succ_self j)]
    · rw [Function.update_of_ne (ownLock_inj.not.mpr hit), h.mutex i]
      exact if_congr (hlt i hit).symm rfl rfl
  · change Function.update (Function.update s.point t _) t .running i = _
    rw [Function.update_idem, Function.update_apply, h.point i]
    split <;> rfl
  · change Function.update s.lockstack t _ i = _
    rw [Function.update_apply]
    by_cases hit : i = t
    · rw [if_pos hit, if_pos (by rw [hit]; exact Nat.lt_succ_self j), hit]
      rfl
    · rw [if_neg hit, h.stack i hi]
      exact if_congr (hlt i hit).symm rfl rfl

/-- The next thread asks for the lock behind its own. -/
theorem stage_ask {k : Nat} {s : Threads (Fin n)} (hn : 3 ≤ n) (hk : k < n) (h : Stage n k s) :
    ∃ s', (nestedThreads (Fin n)).Reaches s s' ∧ Stage n (k + 1) s' := by
  let t : Fin n := ⟨k, hk⟩
  have hstack : s.lockstack t = some [(ownLock t, place)] :=
    (h.stack t (le_refl k)).trans (if_pos hk)
  have hne : ownLock t ≠ ownLock (next t) :=
    ownLock_inj.not.mpr (Ne.symm (next_ne (by omega) t))
  have hahead : ahead (ownLock (next t)) (s.lockstack t) = [ownLock t] := by
    rw [hstack, ahead_own hne]
  have hno : ∀ a ∈ [ownLock t], (ownLock (next t), a) ∉ s.lockdata.lockorders := by
    intro a ha
    rw [List.mem_singleton.mp ha, h.orders]
    rintro ⟨i, -, heq⟩
    obtain ⟨hi, ht⟩ := Prod.mk.inj heq
    rw [ownLock_inj] at hi ht
    rw [← hi] at ht
    exact next_next_ne hn t ht.symm
  obtain ⟨d, hr, henter⟩ := enter_step t (ownLock (next t)) h.alive
    ((h.point t).trans (if_neg (lt_irrefl k))) h.available (by rwa [hahead])
  rw [hahead] at hr
  have hlt : ∀ i : Fin n, i ≠ t → (i.val < k + 1 ↔ i.val < k) := by
    intro i hi
    have hv : i.val ≠ k := fun hv => hi (Fin.ext hv)
    omega
  refine ⟨_, Machine.Reaches.step (Machine.guarded_step.mpr ⟨henter, rfl⟩), ?_⟩
  refine ⟨h.alive, hr.available.trans h.available, fun p => ?_, h.mutex, fun i => ?_,
    fun i hi => ?_⟩
  · change p ∈ d.lockorders ↔ _
    rw [hr.mem, h.orders, List.mem_singleton]
    constructor
    · rintro (⟨i, hi, hp⟩ | ⟨h2, h1⟩)
      · exact ⟨i, Nat.lt_succ_of_lt hi, hp⟩
      · exact ⟨t, Nat.lt_succ_self k, Prod.ext h1 h2⟩
    · rintro ⟨i, hi, rfl⟩
      by_cases hit : i = t
      · exact Or.inr ⟨by rw [hit], by rw [hit]⟩
      · exact Or.inl ⟨i, (hlt i hit).mp hi, rfl⟩
  · change Function.update s.point t _ i = _
    by_cases hit : i = t
    · rw [hit, Function.update_self, if_pos (Nat.lt_succ_self k)]
    · rw [Function.update_of_ne hit, h.point i]
      exact if_congr (hlt i hit).symm rfl rfl
  · change Function.update s.lockstack t _ i = _
    have hit : i ≠ t := by
      rintro rfl
      exact absurd hi (Nat.not_succ_le_self k)
    rw [Function.update_of_ne hit]
    exact h.stack i (Nat.le_of_succ_le hi)

theorem stage_taken (j : Nat) (hj : j ≤ n) :
    ∃ s : Threads (Fin n), (nestedThreads (Fin n)).Reachable s ∧ Stage j 0 s := by
  induction j with
  | zero => exact ⟨new, Machine.Reachable.init, stage_new⟩
  | succ j ih =>
    obtain ⟨s, hs, h⟩ := ih (by omega)
    obtain ⟨s', hs', h'⟩ := stage_take hj h
    exact ⟨s', hs.trans hs', h'⟩

theorem stage_asked (hn : 3 ≤ n) (k : Nat) (hk : k ≤ n) :
    ∃ s : Threads (Fin n), (nestedThreads (Fin n)).Reachable s ∧ Stage n k s := by
  induction k with
  | zero => exact stage_taken n (le_refl n)
  | succ k ih =>
    obtain ⟨s, hs, h⟩ := ih (by omega)
    obtain ⟨s', hs', h'⟩ := stage_ask hn hk h
    exact ⟨s', hs.trans hs', h'⟩

/-- **Longer cycles go unnoticed.** For every `n ≥ 3` a run of `n` threads, which only
take scoped locks, is not stopped and ends with each thread waiting for the next. -/
theorem cycle_not_detected (hn : 3 ≤ n) :
    ∃ s : Threads (Fin n), (nestedThreads (Fin n)).Reachable s ∧ s.aborted = none ∧
      ∀ i, (requests s).WaitsFor i (next i) := by
  obtain ⟨s, hs, h⟩ := stage_asked hn n (le_refl n)
  refine ⟨s, hs, h.alive, fun i => ⟨Ne.symm (next_ne (by omega) i), ownLock (next i), ?_, ?_⟩⟩
  · exact wants_iff.mpr ((h.point i).trans (if_pos i.isLt))
  · change (s.mutex _).owner = _
    rw [h.mutex, if_pos (next i).isLt]
    rfl

theorem cycle_not_detected_three :
    ∃ s : Threads (Fin 3), (nestedThreads (Fin 3)).Reachable s ∧ s.aborted = none ∧
      ∀ i, (requests s).WaitsFor i (next i) := cycle_not_detected (by decide)

end LearnFramework.Sync
