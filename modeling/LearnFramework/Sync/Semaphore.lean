import LearnFramework.Lib.Family
import LearnFramework.Lib.Machine

/-!
# `CSemaphore`

Any number of threads on one semaphore of `sync.h`. As in the check queue, one
critical section is one action: the mutex is held throughout, and it ends when the
thread waits or returns. `post` releases the mutex before it notifies, so its
`notify_one` is an action of its own.

* `wait t`: `t` calls `wait()`; `lock t`: it takes the mutex, at the start or inside
  `condition.wait`, and runs to the end of the critical section;
* `tryWait t`: the whole of `try_wait()`;
* `post t`: the critical section of `post()`; `notify t pick`: its `notify_one`, which
  reaches `pick`, or nobody when no thread waits;
* `wake t`: a spurious wake-up.
-/

namespace LearnFramework.Sync

open Machines Families

namespace CSemaphore

/-- `value--` behind the test of `value < 1`. -/
def take (value : Int) : Option Int := if value < 1 then none else some (value - 1)

/-- `value++`; an `int` does not go beyond 2147483647. -/
def give (value : Int) : Option Int := if value < 2147483647 then some (value + 1) else none

theorem take_eq_some {value v : Int} : take value = some v ↔ 1 ≤ value ∧ v = value - 1 := by
  rw [take]
  split
  · exact iff_of_false (by simp) (by omega)
  · rw [Option.some.injEq]
    omega

theorem give_eq_some {value v : Int} :
    give value = some v ↔ value < 2147483647 ∧ v = value + 1 := by
  rw [give]
  split
  · rw [Option.some.injEq]
    omega
  · exact iff_of_false (by simp) (by omega)

end CSemaphore

/-- Where a thread is with respect to the semaphore. -/
inductive Spot where
  | outside
  /-- in `wait()`, about to take the mutex -/
  | entering
  /-- in `condition.wait`, with no notification pending -/
  | waiting
  /-- in `condition.wait`, notified or spuriously woken, about to retake the mutex -/
  | woken
  /-- in `post()`, past the critical section, about to notify -/
  | posted
  deriving DecidableEq, Repr

/-- On its way to look at the value, or to send somebody. -/
def Spot.coming : Spot → Bool
  | .woken => true
  | .posted => true
  | _ => false

/-- The last two fields count; no code reads them. -/
structure Waiters (ι : Type*) where
  value : Int
  spot : ι → Spot
  taken : Nat
  posts : Nat

inductive SemAct (ι : Type*) where
  | wait (t : ι)
  | lock (t : ι)
  | tryWait (t : ι)
  | post (t : ι)
  | notify (t : ι) (pick : Option ι)
  | wake (t : ι)
  deriving DecidableEq

namespace Waiters

variable {ι : Type*} [DecidableEq ι]

def goto (s : Waiters ι) (t : ι) (p : Spot) : Waiters ι :=
  { s with spot := Function.update s.spot t p }

/-- The critical section of `wait`, from its test on. -/
def lock (s : Waiters ι) (t : ι) : Option (Waiters ι) :=
  if s.spot t = .entering ∨ s.spot t = .woken then
    match CSemaphore.take s.value with
    | some v => some ({ s with value := v, taken := s.taken + 1 }.goto t .outside)
    | none => some (s.goto t .waiting)
  else none

def tryWait (s : Waiters ι) (t : ι) : Option (Waiters ι) :=
  if s.spot t = .outside then
    match CSemaphore.take s.value with
    | some v => some { s with value := v, taken := s.taken + 1 }
    | none => some s
  else none

def post (s : Waiters ι) (t : ι) : Option (Waiters ι) :=
  if s.spot t = .outside then
    (CSemaphore.give s.value).map fun v =>
      { s with value := v, posts := s.posts + 1 }.goto t .posted
  else none

/-- `condition.notify_one()` at the end of `post`. -/
def notify [Fintype ι] (s : Waiters ι) (t : ι) (pick : Option ι) : Option (Waiters ι) :=
  if s.spot t = .posted then
    match pick with
    | some u => if s.spot u = .waiting then some ((s.goto t .outside).goto u .woken) else none
    | none => if ∀ u, s.spot u ≠ .waiting then some (s.goto t .outside) else none
  else none

def step [Fintype ι] (s : Waiters ι) : SemAct ι → Option (Waiters ι)
  | .wait t => if s.spot t = .outside then some (s.goto t .entering) else none
  | .lock t => s.lock t
  | .tryWait t => s.tryWait t
  | .post t => s.post t
  | .notify t pick => s.notify t pick
  | .wake t => if s.spot t = .waiting then some (s.goto t .woken) else none

/-! ## What each step does -/

inductive Step [Fintype ι] (s : Waiters ι) : SemAct ι → Waiters ι → Prop
  | wait (t : ι) (hp : s.spot t = .outside) : Step s (.wait t) (s.goto t .entering)
  | pass (t : ι) (hp : s.spot t = .entering ∨ s.spot t = .woken) (hv : 1 ≤ s.value) :
      Step s (.lock t)
        ({ s with value := s.value - 1, taken := s.taken + 1 }.goto t .outside)
  | sleep (t : ι) (hp : s.spot t = .entering ∨ s.spot t = .woken) (hv : s.value < 1) :
      Step s (.lock t) (s.goto t .waiting)
  | took (t : ι) (hv : 1 ≤ s.value) :
      Step s (.tryWait t) { s with value := s.value - 1, taken := s.taken + 1 }
  | failed (t : ι) : Step s (.tryWait t) s
  | post (t : ι) (hp : s.spot t = .outside) :
      Step s (.post t) ({ s with value := s.value + 1, posts := s.posts + 1 }.goto t .posted)
  | notify (t u : ι) (hp : s.spot t = .posted) (hu : s.spot u = .waiting) :
      Step s (.notify t (some u)) ((s.goto t .outside).goto u .woken)
  | nobody (t : ι) (hp : s.spot t = .posted) (hu : ∀ u, s.spot u ≠ .waiting) :
      Step s (.notify t none) (s.goto t .outside)
  | wake (t : ι) (hp : s.spot t = .waiting) : Step s (.wake t) (s.goto t .woken)

theorem step_cases [Fintype ι] {s s' : Waiters ι} {a : SemAct ι} (h : s.step a = some s') :
    Step s a s' := by
  cases a with
  | wait t =>
    simp only [step] at h
    split at h <;> cases h
    exact Step.wait t ‹_›
  | lock t =>
    simp only [step, lock] at h
    split at h
    · rename_i hp
      cases hv : CSemaphore.take s.value with
      | some v =>
        obtain ⟨h1, rfl⟩ := CSemaphore.take_eq_some.mp hv
        rw [hv] at h
        cases h
        exact Step.pass t hp h1
      | none =>
        rw [hv] at h
        cases h
        refine Step.sleep t hp ?_
        by_contra hlt
        rw [CSemaphore.take, if_neg hlt] at hv
        cases hv
    · cases h
  | tryWait t =>
    simp only [step, tryWait] at h
    split at h
    · cases hv : CSemaphore.take s.value with
      | some v =>
        obtain ⟨h1, rfl⟩ := CSemaphore.take_eq_some.mp hv
        rw [hv] at h
        cases h
        exact Step.took t h1
      | none =>
        rw [hv] at h
        cases h
        exact Step.failed t
    · cases h
  | post t =>
    simp only [step, post] at h
    split at h
    · obtain ⟨v, hv, rfl⟩ := Option.map_eq_some_iff.mp h
      obtain ⟨-, rfl⟩ := CSemaphore.give_eq_some.mp hv
      exact Step.post t ‹_›
    · cases h
  | notify t pick =>
    simp only [step, notify] at h
    split at h
    · rename_i hp
      cases pick with
      | some u =>
        simp only at h
        split at h <;> cases h
        exact Step.notify t u hp ‹_›
      | none =>
        simp only at h
        split at h <;> cases h
        exact Step.nobody t hp ‹_›
    · cases h
  | wake t =>
    simp only [step] at h
    split at h <;> cases h
    exact Step.wake t ‹_›

end Waiters

/-- The threads `ι` on a semaphore made with `init`. -/
def semaphore (ι : Type*) [Fintype ι] [DecidableEq ι] (init : Int) :
    Machine (Waiters ι) (SemAct ι) where
  init := ⟨init, fun _ => .outside, 0, 0⟩
  step := Waiters.step

namespace Waiters

variable {ι : Type*} [Fintype ι] [DecidableEq ι] {init : Int} {s s' : Waiters ι}

theorem count_goto (p : Spot → Bool) (s : Waiters ι) (t : ι) (c : Spot) :
    count p (s.goto t c).spot + (p (s.spot t)).toNat = count p s.spot + (p c).toNat :=
  count_update ..

omit [Fintype ι] in
theorem spot_goto (s : Waiters ι) (t u : ι) (c : Spot) :
    (s.goto t c).spot u = if u = t then c else s.spot u := Function.update_apply ..

/-! ## Permits are neither made nor lost -/

/-- The value is what the constructor and `post` gave less what was taken. -/
structure Balance (init : Int) (s : Waiters ι) : Prop where
  balance : s.value + s.taken = init + s.posts
  low : min init 0 ≤ s.value

theorem Balance.step {a : SemAct ι} (h : Balance init s) (ha : Step s a s') :
    Balance init s' := by
  obtain ⟨hb, hl⟩ := h
  cases ha with
  | pass t hp hv => exact ⟨by simp only [goto]; omega, by simp only [goto]; omega⟩
  | took t hv => exact ⟨by simp only; omega, by simp only; omega⟩
  | post t hp => exact ⟨by simp only [goto]; omega, by simp only [goto]; omega⟩
  | wait | sleep | failed | notify | nobody | wake => exact ⟨hb, hl⟩

theorem balance_of_reachable (hs : (semaphore ι init).Reachable s) : Balance init s := by
  refine hs.invariant ⟨rfl, min_le_left _ _⟩ ?_
  intro s a s' h ha
  exact h.step (step_cases ha)

/-! ## Nobody sleeps on a permit -/

/-- While some thread sleeps, as many threads are coming as there are permits. -/
def Attended (s : Waiters ι) : Prop :=
  (∃ t, s.spot t = .waiting) → s.value ≤ count Spot.coming s.spot

/-- A thread that moves and does not fall asleep leaves the sleepers. -/
theorem Attended.moved (h : Attended s) {t : ι} {c : Spot} (hc : c ≠ .waiting) {v : Int}
    {taken posts : Nat}
    (hv : s.value ≤ count Spot.coming s.spot →
      v + (s.spot t).coming.toNat ≤ count Spot.coming s.spot + c.coming.toNat) :
    Attended (goto ⟨v, s.spot, taken, posts⟩ t c) := by
  rintro ⟨u, hu⟩
  have hne : u ≠ t := by
    rintro rfl
    rw [spot_goto, if_pos rfl] at hu
    exact hc hu
  rw [spot_goto, if_neg hne] at hu
  have hcount := count_goto Spot.coming ⟨v, s.spot, taken, posts⟩ t c
  have hle := hv (h ⟨u, hu⟩)
  simp only [goto] at hcount ⊢
  omega

theorem attended_step {a : SemAct ι} (h : Attended s) (ha : Step s a s') : Attended s' := by
  cases ha with
  | wait t hp => exact h.moved (by decide) fun hle => by rw [hp]; simpa [Spot.coming] using hle
  | pass t hp hv =>
    refine h.moved (by decide) fun hle => ?_
    have hbit := Bool.toNat_le (s.spot t).coming
    change _ ≤ (count Spot.coming s.spot : Int) + (0 : Nat)
    omega
  | sleep t hp hv =>
    intro _
    have hpos : (0 : Int) ≤ count Spot.coming (s.goto t .waiting).spot := Int.natCast_nonneg _
    simp only [goto] at hpos ⊢
    omega
  | took t hv =>
    intro hw
    have hle := h hw
    simp only at hle ⊢
    omega
  | failed t => exact h
  | post t hp =>
    refine h.moved (by decide) fun hle => ?_
    rw [hp]
    simp only [Spot.coming, Bool.toNat_false, Bool.toNat_true]
    omega
  | notify t u hp hu =>
    intro _
    have hne : u ≠ t := by
      rintro rfl
      rw [hp] at hu
      cases hu
    -- one thread stops coming, and another starts
    have h1 := count_goto Spot.coming s t .outside
    have h2 := count_goto Spot.coming (s.goto t .outside) u .woken
    rw [spot_goto, if_neg hne, hu] at h2
    rw [hp] at h1
    simp only [Spot.coming, Bool.toNat_false, Bool.toNat_true, goto] at h1 h2 ⊢
    have hle := h ⟨u, hu⟩
    omega
  | nobody t hp hu =>
    rintro ⟨u, hw⟩
    rw [spot_goto] at hw
    split at hw
    · cases hw
    · exact absurd hw (hu u)
  | wake t hp =>
    refine h.moved (by decide) fun hle => ?_
    rw [hp]
    simp only [Spot.coming, Bool.toNat_false, Bool.toNat_true]
    omega

theorem attended_of_reachable (hs : (semaphore ι init).Reachable s) : Attended s := by
  refine hs.invariant ?_ ?_
  · rintro ⟨t, ht⟩
    cases ht
  · intro s a s' h ha
    exact attended_step h (step_cases ha)

/-! ## The threads inside come to rest -/

/-- A step of a thread that is inside `wait` or `post`, spurious wake-ups apart. -/
def inside (_ : Waiters ι) (a : SemAct ι) (_ : Waiters ι) : Bool :=
  match a with
  | .lock _ => true
  | .notify _ _ => true
  | _ => false

/-- How many such steps a thread can still cause. -/
def weight : Spot → Nat
  | .entering => 1
  | .woken => 1
  | .posted => 2
  | _ => 0

omit [DecidableEq ι] in
theorem total_weight_le (s : Waiters ι) : total weight s.spot ≤ Fintype.card ι * 2 := by
  apply total_le
  intro i
  cases s.spot i <;> decide

theorem total_goto (s : Waiters ι) (t : ι) (c : Spot) :
    total weight (s.goto t c).spot + weight (s.spot t) = total weight s.spot + weight c :=
  total_update ..

theorem weight_step {a : SemAct ι} (ha : Step s a s') (hi : inside s a s' = true) :
    total weight s'.spot < total weight s.spot := by
  cases ha with
  | pass t hp hv =>
    have h := total_goto s t .outside
    simp only [goto] at h ⊢
    rcases hp with hp | hp <;> rw [hp] at h <;> simp only [weight] at h <;> omega
  | sleep t hp hv =>
    have h := total_goto s t .waiting
    rcases hp with hp | hp <;> rw [hp] at h <;> simp only [weight] at h <;> omega
  | notify t u hp hu =>
    have hne : u ≠ t := by
      rintro rfl
      rw [hp] at hu
      cases hu
    have h1 := total_goto s t .outside
    have h2 := total_goto (s.goto t .outside) u .woken
    rw [spot_goto, if_neg hne, hu] at h2
    rw [hp] at h1
    simp only [weight] at h1 h2
    omega
  | nobody t hp hu =>
    have h := total_goto s t .outside
    rw [hp] at h
    simp only [weight] at h
    omega
  | wait | took | failed | post | wake => cases hi

/-- A thread that is inside has a step to take. -/
theorem inside_enabled {t : ι} (h : s.spot t ≠ .outside) (h' : s.spot t ≠ .waiting) :
    ∃ a s', s.step a = some s' ∧ inside s a s' = true := by
  cases hp : s.spot t with
  | outside => exact absurd hp h
  | waiting => exact absurd hp h'
  | entering =>
    cases hv : CSemaphore.take s.value with
    | none => exact ⟨.lock t, _, by simp only [step, lock, hp, hv]; rfl, rfl⟩
    | some v => exact ⟨.lock t, _, by simp only [step, lock, hp, hv]; rfl, rfl⟩
  | woken =>
    cases hv : CSemaphore.take s.value with
    | none => exact ⟨.lock t, _, by simp only [step, lock, hp, hv]; rfl, rfl⟩
    | some v => exact ⟨.lock t, _, by simp only [step, lock, hp, hv]; rfl, rfl⟩
  | posted =>
    by_cases hu : ∃ u, s.spot u = .waiting
    · obtain ⟨u, hu⟩ := hu
      exact ⟨.notify t (some u), (s.goto t .outside).goto u .woken,
        by simp only [step, notify, hp, hu, if_true], rfl⟩
    · have hno : ∀ u, s.spot u ≠ .waiting := not_exists.mp hu
      exact ⟨.notify t none, _, by
        simp only [step, notify, hp, if_true]
        exact if_pos hno, rfl⟩

/-- What holds when the threads inside have come to rest. -/
structure Settled (init : Int) (s : Waiters ι) : Prop where
  asleep : ∀ t, s.spot t = .outside ∨ s.spot t = .waiting
  spent : (∃ t, s.spot t = .waiting) → s.value ≤ 0
  taken : 0 ≤ init → (∃ t, s.spot t = .waiting) → (s.taken : Int) = init + s.posts

/-- **No permit is left to a sleeper.** From a reachable state, the threads inside
`wait` and `post` come to rest after at most twice as many steps as there are threads, in
any order and without spurious wake-ups; a thread that then still sleeps has no permit to
take, and while one sleeps every permit ever given has been taken. -/
theorem settles (hs : (semaphore ι init).Reachable s) {as : List (SemAct ι)}
    (h : ((semaphore ι init).guarded inside).run s as = some s') :
    as.length ≤ Fintype.card ι * 2 ∧
      ((∀ a u, ((semaphore ι init).guarded inside).step s' a ≠ some u) → Settled init s') := by
  have hlen : as.length + total weight s'.spot ≤ total weight s.spot := by
    refine Machine.run_length_le (I := fun _ => True)
      (μ := fun s : Waiters ι => total weight s.spot) ?_ trivial h
    intro u a v _ hv
    obtain ⟨hv, hi⟩ := Machine.guarded_step.mp hv
    exact ⟨trivial, weight_step (step_cases hv) hi⟩
  have hle := total_weight_le s
  refine ⟨by omega, fun hstuck => ?_⟩
  have hs' : (semaphore ι init).Reachable s' := by
    exact hs.trans ⟨as, Machine.run_of_guarded h⟩
  have hasleep : ∀ t, s'.spot t = .outside ∨ s'.spot t = .waiting := by
    intro t
    by_contra hno
    obtain ⟨ho, hw⟩ := not_or.mp hno
    obtain ⟨a, u, ha, hi⟩ := inside_enabled ho hw
    exact hstuck a u (Machine.guarded_step.mpr ⟨ha, hi⟩)
  have hcoming : count Spot.coming s'.spot = 0 := by
    refine total_eq_zero fun t => ?_
    rcases hasleep t with ht | ht <;> rw [ht] <;> rfl
  have hspent : (∃ t, s'.spot t = .waiting) → s'.value ≤ 0 := by
    intro hw
    have hatt := attended_of_reachable hs' hw
    omega
  refine ⟨hasleep, hspent, fun h0 hw => ?_⟩
  have hb := balance_of_reachable hs'
  have hval := hspent hw
  have hlow := hb.low
  have hbal := hb.balance
  omega

/-- A sleeper, a post, and the two steps that bring it through. -/
theorem settles_after_post :
    ∃ s' : Waiters (Fin 2), s'.taken = 1 ∧
      ([.notify 1 (some 0), .lock 0] : List (SemAct (Fin 2))).length ≤ Fintype.card (Fin 2) * 2 ∧
        ((∀ a u, ((semaphore (Fin 2) 0).guarded inside).step s' a ≠ some u) →
          Settled 0 s') := by
  have h : (((semaphore (Fin 2) 0).run (semaphore (Fin 2) 0).init
      [.wait 0, .lock 0, .post 1]).bind fun s => ((semaphore (Fin 2) 0).guarded inside).run s
        [.notify 1 (some 0), .lock 0]).map (fun s => s.taken) = some 1 := by decide
  obtain ⟨s', hs', ht⟩ := Option.map_eq_some_iff.mp h
  obtain ⟨s, hs, hrun⟩ := Option.bind_eq_some_iff.mp hs'
  exact ⟨s', ht, settles ⟨_, hs⟩ hrun⟩

end Waiters

end LearnFramework.Sync
