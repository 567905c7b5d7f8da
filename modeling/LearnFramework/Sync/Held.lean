import LearnFramework.Sync.Locking

/-!
# The lock stack and the mutexes

`pop_lock` removes the newest entry whichever lock is left. When locks are left in
the reverse order of their taking, as scoped `CMutexLock`s do, the stack of a thread
is nevertheless exactly what it holds (`Mirror`): each mutex as often as the thread
has locked it, and behind them the lock it is about to lock. So `AssertLockHeld`
tells the truth, but for a thread that has never entered a lock
(`truthful_of_reachable`).
-/

namespace LearnFramework.Sync

open Machines LockData Threads

variable {ι : Type*} {s s' : Threads ι}

/-- What a thread holds: its stack less the lock it has entered only. -/
def held (s : Threads ι) (t : ι) : List Ptr :=
  match (s.point t).entered with
  | none => s.stackOf t
  | some _ => (s.stackOf t).dropLast

theorem held_of_running {t : ι} (h : s.point t = .running) : held s t = s.stackOf t := by
  rw [held, h]
  rfl

theorem stackOf_of_lockstack {t : ι} {stack : LockStack} {i : Ptr × CLockLocation}
    (h : s.lockstack t = some (stack ++ [i])) : s.stackOf t = locks stack ++ [i.1] := by
  rw [stackOf, h, Option.getD_some, locks_append]
  rfl

theorem stackOf_pushed (t : ι) (cs : Ptr) (l : CLockLocation) :
    locks (pushed cs l (s.lockstack t)) = s.stackOf t ++ [cs] := by
  rw [pushed, locks_append]
  rfl

theorem entered_ite (fTry : Bool) (cs : Ptr) :
    (if fTry then Point.trying cs else .locking cs).entered = some cs := by
  cases fTry <;> rfl

theorem mutex_withMutex (s : Threads ι) (cs c : Ptr) (m : RecursiveMutex ι) :
    (s.withMutex cs m).mutex c = if c = cs then m else s.mutex c :=
  Function.update_apply ..

section

variable [DecidableEq ι]

theorem stackOf_withStack (s : Threads ι) (t u : ι) (stack : LockStack) (p : Point) :
    (s.withStack t stack p).stackOf u = if u = t then locks stack else s.stackOf u := by
  rw [stackOf, withStack]
  split
  · rename_i h
    subst h
    simp only [Function.update_self, Option.getD_some]
  · rename_i h
    simp only [Function.update_of_ne h, stackOf]

theorem point_withStack (s : Threads ι) (t u : ι) (stack : LockStack) (p : Point) :
    (s.withStack t stack p).point u = if u = t then p else s.point u :=
  Function.update_apply ..

theorem held_enter (s : Threads ι) (t u : ι) (cs : Ptr) (l : CLockLocation) (fTry : Bool)
    (hp : s.point t = .running) :
    held (s.withStack t (pushed cs l (s.lockstack t))
      (if fTry then .trying cs else .locking cs)) u = held s u := by
  by_cases hu : u = t
  · rw [hu, held_of_running hp, held, stackOf_withStack, point_withStack, if_pos rfl,
      if_pos rfl, entered_ite, stackOf_pushed]
    exact List.dropLast_concat
  · rw [held, stackOf_withStack, point_withStack, if_neg hu, if_neg hu, held]

end

variable [Fintype ι] [DecidableEq ι]

/-- Only the newest lock of a thread is left. -/
def nested (s : Threads ι) (a : Act ι) (_ : Threads ι) : Bool :=
  match a with
  | .leave t cs => (s.stackOf t).getLast? == some cs
  | _ => true

/-- The threads that leave locks in the reverse order of their taking. -/
def nestedThreads (ι : Type*) [Fintype ι] [DecidableEq ι] : Machine (Threads ι) (Act ι) :=
  (threads ι).guarded nested

/-- The stacks agree with the mutexes. -/
structure Mirror (s : Threads ι) : Prop where
  entered : ∀ t cs, (s.point t).entered = some cs → s.stackOf t = held s t ++ [cs]
  depth : ∀ t cs, (s.mutex cs).depth t = (held s t).count cs

omit [Fintype ι] in
theorem mirror_new : Mirror (new : Threads ι) where
  entered t cs h := by cases h
  depth t cs := rfl

omit [Fintype ι] in
/-- One thread goes back to running; nothing changes for the others. -/
theorem Mirror.running (h : Mirror s) {t : ι}
    (hpoint : ∀ u, s'.point u = if u = t then .running else s.point u)
    (hstack : ∀ u, u ≠ t → s'.stackOf u = s.stackOf u)
    (hself : ∀ c, (s'.mutex c).depth t = (s'.stackOf t).count c)
    (hothers : ∀ u c, u ≠ t → (s'.mutex c).depth u = (s.mutex c).depth u) : Mirror s' := by
  have hheld : ∀ u, u ≠ t → held s' u = held s u := by
    intro u hu
    rw [held, hpoint, if_neg hu, hstack u hu, held]
  refine ⟨fun u c hc => ?_, fun u c => ?_⟩
  · rw [hpoint] at hc
    by_cases hu : u = t
    · rw [if_pos hu] at hc
      cases hc
    · rw [if_neg hu] at hc
      rw [hheld u hu, hstack u hu]
      exact h.entered u c hc
  · by_cases hu : u = t
    · subst hu
      rw [hself, held_of_running (by rw [hpoint, if_pos rfl])]
    · rw [hheld u hu, hothers u c hu]
      exact h.depth u c

theorem mirror_step {a : Act ι} (h : Mirror s) (ha : Step s a s') (hn : nested s a s' = true) :
    Mirror s' := by
  cases ha with
  | enter t pszName pszFile nLine cs fTry d hp hr =>
    refine ⟨fun u c hc => ?_, fun u c => ?_⟩
    · rw [held_enter _ t u cs _ fTry (by exact hp)]
      rw [point_withStack] at hc
      rw [stackOf_withStack]
      by_cases hu : u = t
      · rw [if_pos hu, entered_ite] at hc
        cases hc
        rw [if_pos hu, stackOf_pushed, hu]
        exact congrArg (· ++ [cs]) (held_of_running hp).symm
      · rw [if_neg hu] at hc ⊢
        exact h.entered u c hc
    · rw [held_enter _ t u cs _ fTry (by exact hp)]
      exact h.depth u c
  | refuse t pszName pszFile nLine cs fTry e hr => exact ⟨h.entered, h.depth⟩
  | lock t cs m hp hm =>
    refine h.running (t := t) (fun u => Function.update_apply ..) (fun _ _ => rfl) ?_ ?_
    · intro c
      change ((s.withMutex cs m).mutex c).depth t = (s.stackOf t).count c
      rw [mutex_withMutex, h.entered t cs hp, List.count_append, ← h.depth t c]
      by_cases hc : c = cs
      · rw [if_pos hc, RecursiveMutex.depth_lock hm, if_pos rfl, hc, List.count_singleton_self]
      · rw [if_neg hc, List.count_singleton, if_neg (by simpa using Ne.symm hc), Nat.add_zero]
    · intro u c hu
      change ((s.withMutex cs m).mutex c).depth u = _
      rw [mutex_withMutex]
      by_cases hc : c = cs
      · rw [if_pos hc, RecursiveMutex.depth_lock hm, if_neg hu, hc, Nat.add_zero]
      · rw [if_neg hc]
  | giveUp t cs stack i hp hs =>
    have hheld : held s t = locks stack := by
      have heq := h.entered t cs (by rw [hp]; rfl)
      rw [stackOf_of_lockstack hs] at heq
      exact (List.append_inj' heq rfl).1.symm
    refine h.running (t := t) (fun u => point_withStack ..) ?_ ?_ (fun _ _ _ => rfl)
    · intro u hu
      rw [stackOf_withStack, if_neg hu]
    · intro c
      rw [stackOf_withStack, if_pos rfl, ← hheld]
      exact h.depth t c
  | leave t cs stack i m hp hs hm =>
    have hstack := stackOf_of_lockstack hs
    have hi : i.1 = cs := by
      simp only [nested, hstack, List.getLast?_concat, beq_iff_eq, Option.some.injEq] at hn
      exact hn
    refine h.running (t := t) (fun u => point_withStack ..) ?_ ?_ ?_
    · intro u hu
      rw [stackOf_withStack, if_neg hu]
      rfl
    · intro c
      have hold := h.depth t c
      rw [held_of_running hp, hstack, hi, List.count_append] at hold
      rw [stackOf_withStack, if_pos rfl]
      change ((s.withMutex cs m).mutex c).depth t = _
      rw [mutex_withMutex]
      by_cases hc : c = cs
      · subst hc
        rw [RecursiveMutex.depth_unlock hm, if_pos rfl, List.count_singleton_self] at hold
        rw [if_pos rfl]
        exact Nat.add_right_cancel hold
      · rw [List.count_singleton, if_neg (by simpa using Ne.symm hc), Nat.add_zero] at hold
        rw [if_neg hc]
        exact hold
    · intro u c hu
      change ((s.withMutex cs m).mutex c).depth u = _
      rw [mutex_withMutex]
      by_cases hc : c = cs
      · rw [if_pos hc, hc, RecursiveMutex.depth_unlock hm, if_neg hu, Nat.add_zero]
      · rw [if_neg hc]
  | destroy cs hm hp => exact ⟨h.entered, h.depth⟩
  | exit => exact ⟨h.entered, h.depth⟩

theorem mirror_of_reachable (hs : (nestedThreads ι).Reachable s) : Mirror s := by
  refine hs.invariant mirror_new ?_
  intro s a s' h ha
  obtain ⟨ha, hn⟩ := Machine.guarded_step.mp ha
  exact mirror_step h (threads_step ha).2 hn

/-! ## `AssertLockHeld` -/

omit [Fintype ι] [DecidableEq ι] in
theorem assertLockHeld_ok_iff {t : ι} {pszName pszFile : String} {nLine : Int} {cs : Ptr} :
    assertLockHeldInternal pszName pszFile nLine cs (s.lockstack t) = some (.ok ()) ↔
      cs ∈ s.stackOf t := by
  rw [assertLockHeldInternal, stackOf]
  cases s.lockstack t with
  | none => simp
  | some stack =>
    rw [Option.bind_some, Option.getD_some, locks, List.mem_map]
    split
    · rename_i h
      obtain ⟨i, hi, heq⟩ := List.any_eq_true.mp h
      exact iff_of_true rfl ⟨i, hi, of_decide_eq_true heq⟩
    · rename_i h
      refine iff_of_false (by simp [locksHeld]) ?_
      rintro ⟨i, hi, heq⟩
      exact h (List.any_eq_true.mpr ⟨i, hi, decide_eq_true heq⟩)

/-- The text has a line for each entry of the stack, the oldest one first. -/
theorem locksHeld_some (stack : LockStack) :
    locksHeld (some stack) = some (String.join (stack.map fun i => i.2.text ++ "\n")) := by
  rw [locksHeld, Option.map_some, String.join, List.foldl_map]

omit [Fintype ι] [DecidableEq ι] in
theorem assertLockHeld_none_iff {t : ι} {pszName pszFile : String} {nLine : Int} {cs : Ptr} :
    assertLockHeldInternal pszName pszFile nLine cs (s.lockstack t) = none ↔
      s.lockstack t = none := by
  rw [assertLockHeldInternal]
  cases s.lockstack t with
  | none => exact iff_of_true rfl rfl
  | some stack =>
    refine iff_of_false ?_ (Option.some_ne_none stack)
    rw [Option.bind_some]
    split <;> simp [locksHeld]

omit [Fintype ι] [DecidableEq ι] in
theorem assertLockHeld_error {t : ι} {pszName pszFile : String} {nLine : Int} {cs : Ptr}
    {stack : LockStack} (hstack : s.lockstack t = some stack) (hcs : cs ∉ s.stackOf t) :
    assertLockHeldInternal pszName pszFile nLine cs (s.lockstack t) = some (.error
      ("Assertion failed: lock " ++ pszName ++ " not held in " ++ pszFile ++ ":" ++
        toString nLine ++ "; locks held:\n" ++
          String.join (stack.map fun i => i.2.text ++ "\n"))) := by
  have hany : ¬(stack.any fun i => i.1 = cs) = true := by
    rw [stackOf, hstack, Option.getD_some, locks, List.mem_map] at hcs
    intro h
    obtain ⟨i, hi, heq⟩ := List.any_eq_true.mp h
    exact hcs ⟨i, hi, of_decide_eq_true heq⟩
  rw [assertLockHeldInternal, hstack, Option.bind_some, if_neg hany, locksHeld_some]
  rfl

/-- The action is a call of `EnterCritical` by `t`. -/
def Act.enters (t : ι) : Act ι → Bool
  | .enter u .. => u = t
  | _ => false

omit [Fintype ι] in
theorem lockstack_withStack (s : Threads ι) (t u : ι) (stack : LockStack) (p : Point) :
    (s.withStack t stack p).lockstack u = if u = t then some stack else s.lockstack u :=
  Function.update_apply ..

/-- A push makes a stack where there is none, and nothing takes one away. -/
theorem lockstack_none_step {a : Act ι} (t : ι) (ha : Step s a s') :
    s'.lockstack t = none ↔ s.lockstack t = none ∧ a.enters t = false := by
  cases ha with
  | enter u pszName pszFile nLine cs fTry d hp hr =>
    rw [lockstack_withStack]
    by_cases hu : t = u
    · simp [hu, Act.enters]
    · simp [hu, Act.enters, Ne.symm hu]
  | refuse u pszName pszFile nLine cs fTry e hr =>
    -- a thread without a stack has nothing in front of the lock, and is not refused
    obtain ⟨a, ha, -⟩ := hr
    by_cases hu : u = t
    · subst hu
      refine iff_of_false (fun hnone => ?_) (by simp [Act.enters])
      rw [show s.lockstack u = none from hnone, ahead, Option.getD_none] at ha
      cases ha
    · simp [Act.enters, hu]
  | lock u cs m hp hm => simp [Act.enters, withMutex]
  | giveUp u cs stack i hp hs =>
    rw [lockstack_withStack]
    by_cases hu : t = u
    · simp [hu, hs]
    · simp [hu, Act.enters]
  | leave u cs stack i m hp hs hm =>
    rw [lockstack_withStack]
    by_cases hu : t = u
    · simp [hu, hs]
    · simp [hu, Act.enters, withMutex]
  | destroy cs hm hp => simp [Act.enters]
  | exit => simp [Act.enters]

/-- **A thread has no lock stack** exactly as long as it has not entered a lock. By
induction on the run. -/
theorem lockstack_none_iff {as : List (Act ι)} (t : ι)
    (h : (threads ι).run (threads ι).init as = some s) :
    s.lockstack t = none ↔ ∀ a ∈ as, a.enters t = false := by
  suffices hrun : ∀ s₀ : Threads ι, (threads ι).run s₀ as = some s →
      (s.lockstack t = none ↔ s₀.lockstack t = none ∧ ∀ a ∈ as, a.enters t = false) by
    rw [hrun _ h]
    exact and_iff_right rfl
  clear h
  induction as with
  | nil =>
    intro s₀ h
    cases h
    simp
  | cons a as ih =>
    intro s₀ h
    obtain ⟨s₁, ha, h⟩ := Machine.run_cons_some.mp h
    rw [ih s₁ h, lockstack_none_step t (threads_step ha).2, List.forall_mem_cons, and_assoc]

/-- The lock stack of a thread says what it holds of a mutex. -/
structure Truthful (s : Threads ι) (t : ι) (cs : Ptr) : Prop where
  depth : (s.mutex cs).depth t = (s.stackOf t).count cs
  passes : ∀ pszName pszFile nLine,
    assertLockHeldInternal pszName pszFile nLine cs (s.lockstack t) = some (.ok ()) ↔
      (s.mutex cs).owner = some t
  fails : ∀ stack, s.lockstack t = some stack → (s.mutex cs).owner ≠ some t →
    ∀ pszName pszFile nLine,
      assertLockHeldInternal pszName pszFile nLine cs (s.lockstack t) = some (.error
        ("Assertion failed: lock " ++ pszName ++ " not held in " ++ pszFile ++ ":" ++
          toString nLine ++ "; locks held:\n" ++
            String.join (stack.map fun i => i.2.text ++ "\n")))
  crashes : ∀ as, (nestedThreads ι).run (nestedThreads ι).init as = some s →
    ∀ pszName pszFile nLine,
      assertLockHeldInternal pszName pszFile nLine cs (s.lockstack t) = none ↔
        ∀ a ∈ as, a.enters t = false

/-- **The lock stack is what the thread holds.** While locks are left in the reverse
order of their taking, a running thread has each lock on its stack as often as it has
locked the mutex. `AssertLockHeld` passes exactly when it owns the mutex; it prints a line
for each lock on the stack when the thread has a stack and does not own the mutex, and
reads through a null pointer exactly when the thread has never entered a lock. -/
theorem truthful_of_reachable (hs : (nestedThreads ι).Reachable s) {t : ι}
    (hp : s.point t = .running) (cs : Ptr) : Truthful s t cs := by
  have hdepth := (mirror_of_reachable hs).depth t cs
  rw [held_of_running hp] at hdepth
  have hpasses : ∀ pszName pszFile nLine,
      assertLockHeldInternal pszName pszFile nLine cs (s.lockstack t) = some (.ok ()) ↔
        (s.mutex cs).owner = some t := by
    intro pszName pszFile nLine
    rw [assertLockHeld_ok_iff, ← RecursiveMutex.depth_pos_iff, hdepth, List.count_pos_iff]
  refine ⟨hdepth, hpasses, ?_, ?_⟩
  · intro stack hstack hno pszName pszFile nLine
    refine assertLockHeld_error hstack fun hmem => hno ?_
    exact (hpasses pszName pszFile nLine).mp (assertLockHeld_ok_iff.mpr hmem)
  · intro as has pszName pszFile nLine
    rw [assertLockHeld_none_iff]
    exact lockstack_none_iff t (Machine.run_of_guarded has)

/-- A mutex locked twice and left once. -/
theorem truthful_of_recursive_run :
    ∃ s : Threads (Fin 1), (s.mutex 10).depth 0 = 1 ∧ Truthful s 0 10 := by
  have h : ((nestedThreads (Fin 1)).run (nestedThreads (Fin 1)).init
      [.enter 0 "a" "main.cpp" 1 10 false, .lock 0, .enter 0 "a" "main.cpp" 2 10 true, .lock 0,
        .leave 0 10]).map (fun s => decide ((s.mutex 10).depth 0 = 1 ∧ s.point 0 = .running)) =
          some true := by
    decide
  obtain ⟨s, hs, hp⟩ := Machine.reachable_of_run h
  obtain ⟨hd, hp⟩ := of_decide_eq_true hp
  exact ⟨s, hd, truthful_of_reachable hs hp 10⟩

end LearnFramework.Sync
