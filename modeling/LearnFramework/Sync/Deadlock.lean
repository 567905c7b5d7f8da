import LearnFramework.Lib.WaitFor
import LearnFramework.Sync.Held
import LearnFramework.Sync.History

/-!
# What the detector excludes

While locks are left in the reverse order of their taking, a thread that is blocked
in `lock.lock()` has recorded every lock it holds in front of the one it waits for
(`ordered_of_reachable`). So no two threads ever wait for each other: one of them
would have been stopped. Longer cycles are excluded only while the recorded order has
no cycle, which the detector does not check: for every `n ≥ 3` there are `n` threads
that block each other with no complaint (`Cycle.lean`).
-/

namespace LearnFramework.Sync

open Machines LockData Threads WaitFor Relation

variable {ι : Type*} [Fintype ι] [DecidableEq ι] {s s' : Threads ι}

/-- Who waits in `lock.lock()` for what, and who owns it. -/
def requests (s : Threads ι) : Requests ι Ptr where
  wants t :=
    match s.point t with
    | .locking cs => some cs
    | _ => none
  owner cs := (s.mutex cs).owner

def RecordedOrder (s : Threads ι) (a b : Ptr) : Prop := (a, b) ∈ s.lockdata.lockorders

/-- Every pair of locks on a stack is recorded. -/
def Covered (s : Threads ι) : Prop :=
  ∀ t a b, b ∈ s.stackOf t → a ∈ front b (s.stackOf t) → RecordedOrder s a b

omit [Fintype ι] [DecidableEq ι] in
theorem wants_iff {t : ι} {cs : Ptr} :
    (requests s).wants t = some cs ↔ s.point t = .locking cs := by
  cases hp : s.point t <;> simp [requests, hp]

omit [Fintype ι] [DecidableEq ι] in
/-- A shorter stack has no new pair. -/
theorem Covered.shorten (h : Covered s) (horders : s'.lockdata = s.lockdata)
    (hstack : ∀ t, s'.stackOf t <+: s.stackOf t) : Covered s' := by
  intro t a b hb ha
  obtain ⟨rest, hrest⟩ := hstack t
  rw [RecordedOrder, horders]
  refine h t a b ?_ ?_
  · rw [← hrest]
    exact List.mem_append_left _ hb
  · rw [← hrest, front_append_of_mem hb]
    exact ha

theorem covered_step {a : Act ι} (hc : s.lockdata.Consistent) (hm : Mirror s) (h : Covered s)
    (ha : Step s a s') : Covered s' := by
  cases ha with
  | enter t pszName pszFile nLine cs fTry d hp hr =>
    intro u a b hb ha
    rw [stackOf_withStack] at hb ha
    change (a, b) ∈ d.lockorders
    rw [hr.mem]
    by_cases hu : u = t
    · rw [if_pos hu, stackOf_pushed] at hb ha
      by_cases hold : b ∈ s.stackOf t
      · rw [front_append_of_mem hold] at ha
        exact Or.inl (h t a b hold ha)
      · -- only the new entry is new
        have hbcs : b = cs := by
          simpa [hold] using hb
        subst hbcs
        rw [front_concat_self] at ha
        exact Or.inr ⟨rfl, ha⟩
    · rw [if_neg hu] at hb ha
      exact Or.inl (h u a b hb ha)
  | refuse t pszName pszFile nLine cs fTry e hr => exact h
  | lock t cs m hp hm => exact h
  | giveUp t cs stack i hp hs =>
    refine h.shorten rfl fun u => ?_
    rw [stackOf_withStack]
    by_cases hu : u = t
    · rw [if_pos hu, hu, stackOf_of_lockstack hs]
      exact List.prefix_append _ _
    · rw [if_neg hu]
  | leave t cs stack i m hp hs hm =>
    refine h.shorten rfl fun u => ?_
    rw [stackOf_withStack]
    by_cases hu : u = t
    · rw [if_pos hu, hu, stackOf_of_lockstack hs]
      exact List.prefix_append _ _
    · rw [if_neg hu]
      exact List.prefix_refl _
  | destroy cs hfree hp =>
    intro t a b hb ha
    have hold := h t a b hb ha
    change (a, b) ∈ (deleteLock cs s.lockdata).lockorders
    by_cases hav : s.lockdata.available = true
    · -- a lock on a stack is held or entered, so it is not destroyed
      have hnot : ∀ c ∈ s.stackOf t, c ≠ cs := by
        rintro c hc rfl
        have hdepth := hm.depth t c
        rw [hfree] at hdepth
        have hheld : c ∉ held s t := List.count_eq_zero.mp hdepth.symm
        cases he : (s.point t).entered with
        | none =>
          rw [held, he] at hheld
          exact hheld hc
        | some c' =>
          rw [hm.entered t c' he, List.mem_append, List.mem_singleton] at hc
          rcases hc with hc | rfl
          · exact hheld hc
          · exact hp t he
      rw [mem_deleteLock cs hav hc]
      exact ⟨hold, hnot a (mem_of_mem_front ha), hnot b hb⟩
    · rw [deleteLock, if_neg hav]
      exact hold
  | exit => exact h

theorem covered_of_reachable (hs : (nestedThreads ι).Reachable s) : Covered s := by
  refine hs.invariant_of_reachable (fun t a b hb _ => by cases hb) ?_
  intro s a s' hr h ha
  have hc := consistent_of_reachable hr.of_guarded
  exact covered_step hc (mirror_of_reachable hr) h (threads_step (Machine.guarded_step.mp ha).1).2

omit [Fintype ι] in
theorem blocked_iff {t : ι} : (requests s).Blocked t ↔
    ∃ cs, s.point t = .locking cs ∧ (s.mutex cs).lock t = none := by
  constructor
  · rintro ⟨u, hne, cs, hw, ho⟩
    exact ⟨cs, wants_iff.mp hw, RecursiveMutex.lock_eq_none_iff.mpr ⟨u, Ne.symm hne, ho⟩⟩
  · rintro ⟨cs, hp, hm⟩
    obtain ⟨u, hne, ho⟩ := RecursiveMutex.lock_eq_none_iff.mp hm
    exact ⟨u, Ne.symm hne, cs, wants_iff.mpr hp, ho⟩

/-- **What a blocked thread holds is recorded in front of what it waits for.** -/
theorem ordered_of_reachable (hs : (nestedThreads ι).Reachable s) :
    (requests s).Ordered (RecordedOrder s) := by
  intro t c a hb hc ha
  have hm := mirror_of_reachable hs
  obtain ⟨cs, hp, hlock⟩ := blocked_iff.mp hb
  rw [wants_iff] at hc
  rw [hc] at hp
  cases hp
  have hstack := hm.entered t c (by rw [hc]; rfl)
  have hnot : c ∉ held s t := by
    rw [← List.count_eq_zero, ← hm.depth t c]
    obtain ⟨u, hne, ho⟩ := RecursiveMutex.lock_eq_none_iff.mp hlock
    by_contra hpos
    have hown := RecursiveMutex.depth_pos_iff.mp (Nat.pos_of_ne_zero hpos)
    rw [ho] at hown
    exact hne (Option.some.inj hown)
  have hheld : a ∈ held s t := by
    rw [← List.count_pos_iff, ← hm.depth t a]
    exact RecursiveMutex.depth_pos_iff.mpr ha
  refine covered_of_reachable hs t a c ?_ ?_
  · rw [hstack]
    exact List.mem_append_right _ List.mem_cons_self
  · rw [hstack, front_concat_self, front_eq_self hnot]
    exact hheld

theorem lock_step {t : ι} {cs : Ptr} {m : RecursiveMutex ι} (halive : s.aborted = none)
    (hp : s.point t = .locking cs) (hm : (s.mutex cs).lock t = some m) :
    (threads ι).step s (.lock t) =
      some { s.withMutex cs m with point := Function.update s.point t .running } := by
  have hrun : ¬s.aborted.isSome = true := by simp [halive]
  refine (if_neg hrun).trans ?_
  simp only [lock, hp, hm, Option.map_some]

/-- **No two threads wait for each other**, whatever the number of threads and locks. -/
theorem no_two_threads_deadlock (hs : (nestedThreads ι).Reachable s) (t u : ι) :
    ¬((requests s).WaitsFor t u ∧ (requests s).WaitsFor u t) := by
  rintro ⟨htu, hut⟩
  have hasymm := (consistent_of_reachable hs.of_guarded).asymm
  exact (ordered_of_reachable hs).not_waitsFor_of_waitsFor hasymm htu hut

/-- A thread waits for the owner of a lock. -/
theorem no_two_threads_deadlock_waiting :
    ∃ s : Threads (Fin 2), s.point 1 = .locking 10 ∧ (s.mutex 10).owner = some 0 ∧
      ¬((requests s).WaitsFor 0 1 ∧ (requests s).WaitsFor 1 0) := by
  have h : ((nestedThreads (Fin 2)).run (nestedThreads (Fin 2)).init
      [.enter 0 "a" "main.cpp" 1 10 false, .lock 0, .enter 1 "b" "main.cpp" 2 20 false, .lock 1,
        .enter 1 "a" "main.cpp" 3 10 false]).map
          (fun s => decide (s.point 1 = .locking 10 ∧ (s.mutex 10).owner = some 0)) =
            some true := by
    decide
  obtain ⟨s, hs, hp⟩ := Machine.reachable_of_run h
  obtain ⟨hp, ho⟩ := of_decide_eq_true hp
  exact ⟨s, hp, ho, no_two_threads_deadlock hs 0 1⟩

/-- **No deadlock while the recorded order has no cycle** and locks are left in the reverse
order of their taking. From every thread the waits-for edges lead to one that can go on. -/
theorem no_deadlock_of_acyclic (hs : (nestedThreads ι).Reachable s)
    (hacyc : ∀ c, ¬TransGen (RecordedOrder s) c c) (t : ι) :
    ∃ u, ReflTransGen (requests s).WaitsFor t u ∧
      ∀ cs, s.point u = .locking cs → s.aborted = none →
        ∃ s', (nestedThreads ι).step s (.lock u) = some s' := by
  have hord := ordered_of_reachable hs
  obtain ⟨u, hreach, hfree⟩ := Requests.exists_not_blocked (hord.not_transGen_self hacyc) t
  refine ⟨u, hreach, fun cs hp halive => ?_⟩
  cases hm : (s.mutex cs).lock u with
  | none => exact absurd (blocked_iff.mpr ⟨cs, hp, hm⟩) hfree
  | some m => exact ⟨_, Machine.guarded_step.mpr ⟨lock_step halive hp hm, rfl⟩⟩

/-- The second thread waits for the first, with one pair recorded. -/
theorem no_deadlock_of_acyclic_waiting :
    ∃ s : Threads (Fin 2), s.point 1 = .locking 10 ∧ s.lockdata.lockorders.keys = [(20, 10)] ∧
      ∃ u, ReflTransGen (requests s).WaitsFor 1 u ∧
        ∀ cs, s.point u = .locking cs → s.aborted = none →
          ∃ s', (nestedThreads (Fin 2)).step s (.lock u) = some s' := by
  have h : ((nestedThreads (Fin 2)).run (nestedThreads (Fin 2)).init
      [.enter 0 "a" "main.cpp" 1 10 false, .lock 0, .enter 1 "b" "main.cpp" 2 20 false, .lock 1,
        .enter 1 "a" "main.cpp" 3 10 false]).map
          (fun s => decide (s.point 1 = .locking 10 ∧ s.lockdata.lockorders.keys = [(20, 10)])) =
            some true := by
    decide
  obtain ⟨s, hs, hp⟩ := Machine.reachable_of_run h
  obtain ⟨hp, hk⟩ := of_decide_eq_true hp
  refine ⟨s, hp, hk, no_deadlock_of_acyclic hs ?_ 1⟩
  -- the recorded order goes from the greater address to the smaller one
  have hdown : ∀ a b, RecordedOrder s a b → b < a := by
    intro a b hab
    rw [RecordedOrder, ← Std.TreeMap.mem_keys, hk, List.mem_singleton] at hab
    cases hab
    decide
  intro c hc
  have htrans : IsTrans Ptr fun a b => b < a := ⟨fun _ _ _ h h' => lt_trans h' h⟩
  have hlt : c < c := transGen_minimal hdown c c hc
  exact lt_irrefl c hlt

end LearnFramework.Sync
