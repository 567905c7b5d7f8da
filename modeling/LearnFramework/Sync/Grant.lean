import LearnFramework.Sync.Semaphore

/-!
# `CSemaphoreGrant`

Any number of grants on any number of semaphores that are used through grants only.
An action is one call. `wait`, `try_wait` and `post` act on the value as their
critical sections do (`Semaphore.lean`); a `wait` with no permit is not enabled. A
null `sem` that is used and an `int` that overflows are faults.
-/

namespace LearnFramework.Sync

open Machines Families CSemaphore

/-- `sem` is null when the default constructor made the grant. -/
structure CSemaphoreGrant (σ : Type*) where
  sem : Option σ
  fHaveGrant : Bool
  deriving DecidableEq, Repr

structure Grants (σ γ : Type*) where
  value : σ → Int
  /-- `none` before the constructor and after the destructor. -/
  grant : γ → Option (CSemaphoreGrant σ)

inductive Fault where
  | noObject
  | nullSem
  | overflow
  /-- waits for a permit -/
  | blocks
  deriving DecidableEq, Repr

inductive GrantAct (σ γ : Type*) where
  | make (g : γ)
  | makeOn (g : γ) (sema : σ) (fTry : Bool)
  | acquire (g : γ)
  | release (g : γ)
  | tryAcquire (g : γ)
  | moveTo (g grant : γ)
  | destroy (g : γ)
  deriving DecidableEq

namespace Grants

variable {σ γ : Type*} [DecidableEq σ] [DecidableEq γ]

def setGrant (s : Grants σ γ) (g : γ) (o : Option (CSemaphoreGrant σ)) : Grants σ γ :=
  { s with grant := Function.update s.grant g o }

def setValue (s : Grants σ γ) (i : σ) (v : Int) : Grants σ γ :=
  { s with value := Function.update s.value i v }

/-- `Acquire`. -/
def acquire (s : Grants σ γ) (g : γ) : Except Fault (Grants σ γ) :=
  match s.grant g with
  | none => .error .noObject
  | some ⟨_, true⟩ => .ok s
  | some ⟨none, false⟩ => .error .nullSem
  | some ⟨some i, false⟩ =>
    match take (s.value i) with
    | some v => .ok ((s.setValue i v).setGrant g (some ⟨some i, true⟩))
    | none => .error .blocks

/-- `Release`. -/
def release (s : Grants σ γ) (g : γ) : Except Fault (Grants σ γ) :=
  match s.grant g with
  | none => .error .noObject
  | some ⟨_, false⟩ => .ok s
  | some ⟨none, true⟩ => .error .nullSem
  | some ⟨some i, true⟩ =>
    match give (s.value i) with
    | some v => .ok ((s.setValue i v).setGrant g (some ⟨some i, false⟩))
    | none => .error .overflow

/-- `TryAcquire`. -/
def tryAcquire (s : Grants σ γ) (g : γ) : Except Fault (Grants σ γ) :=
  match s.grant g with
  | none => .error .noObject
  | some ⟨_, true⟩ => .ok s
  | some ⟨none, false⟩ => .error .nullSem
  | some ⟨some i, false⟩ =>
    match take (s.value i) with
    | some v => .ok ((s.setValue i v).setGrant g (some ⟨some i, true⟩))
    | none => .ok s

/-- `g.MoveTo(grant)`. The two may be one object. -/
def moveTo (s : Grants σ γ) (g grant : γ) : Except Fault (Grants σ γ) :=
  match s.grant g with
  | none => .error .noObject
  | some _ =>
    (s.release grant).bind fun s' =>
      match s'.grant g with
      | none => .error .noObject
      | some this =>
        let s' := s'.setGrant grant (some this)
        .ok (s'.setGrant g (some { this with fHaveGrant := false }))

/-- The constructors. -/
def make (s : Grants σ γ) (g : γ) : Except Fault (Grants σ γ) :=
  match s.grant g with
  | none => .ok (s.setGrant g (some ⟨none, false⟩))
  | some _ => .error .noObject

def makeOn (s : Grants σ γ) (g : γ) (sema : σ) (fTry : Bool) : Except Fault (Grants σ γ) :=
  match s.grant g with
  | none =>
    let s' := s.setGrant g (some ⟨some sema, false⟩)
    if fTry then s'.tryAcquire g else s'.acquire g
  | some _ => .error .noObject

/-- The destructor. -/
def destroy (s : Grants σ γ) (g : γ) : Except Fault (Grants σ γ) :=
  (s.release g).map fun s' => s'.setGrant g none

def call (s : Grants σ γ) : GrantAct σ γ → Except Fault (Grants σ γ)
  | .make g => s.make g
  | .makeOn g sema fTry => s.makeOn g sema fTry
  | .acquire g => s.acquire g
  | .release g => s.release g
  | .tryAcquire g => s.tryAcquire g
  | .moveTo g grant => s.moveTo g grant
  | .destroy g => s.destroy g

end Grants

/-- The grants `γ` on semaphores made with `init`. -/
def grants {σ : Type*} (γ : Type*) [DecidableEq σ] [DecidableEq γ] (init : σ → Int) :
    Machine (Grants σ γ) (GrantAct σ γ) where
  init := ⟨init, fun _ => none⟩
  step s a := (s.call a).toOption

namespace Grants

variable {σ γ : Type*} [DecidableEq σ] [DecidableEq γ] {init : σ → Int} {s s' : Grants σ γ}

/-! ## What the calls change -/

/-- A grant that holds a permit of the semaphore `i`. -/
def holds (i : σ) : Option (CSemaphoreGrant σ) → Bool
  | some ⟨some j, true⟩ => j = i
  | _ => false

/-- A grant that holds a permit has a semaphore. -/
def Sound : Option (CSemaphoreGrant σ) → Prop
  | some ⟨none, true⟩ => False
  | _ => True

/-- One grant changes, and a permit goes from a semaphore to it or back. -/
structure Change (s s' : Grants σ γ) (g : γ) (o : Option (CSemaphoreGrant σ)) : Prop where
  grant : s'.grant = Function.update s.grant g o
  value : ∀ i, s'.value i + (holds i o).toNat = s.value i + (holds i (s.grant g)).toNat
  low : ∀ i, min (s.value i) 0 ≤ s'.value i

theorem Change.refl (s : Grants σ γ) (g : γ) : Change s s g (s.grant g) where
  grant := (Function.update_eq_self g s.grant).symm
  value _ := rfl
  low _ := min_le_left _ _

theorem change_take {g : γ} {i : σ} {v : Int} (hg : s.grant g = some ⟨some i, false⟩)
    (hv : take (s.value i) = some v) :
    Change s ((s.setValue i v).setGrant g (some ⟨some i, true⟩)) g (some ⟨some i, true⟩) := by
  obtain ⟨hpos, rfl⟩ := take_eq_some.mp hv
  refine ⟨rfl, fun j => ?_, fun j => ?_⟩
  · by_cases hj : j = i
    · subst hj
      simp [setGrant, setValue, holds, hg]
    · simp [setGrant, setValue, holds, hg, hj, Ne.symm hj]
  · by_cases hj : j = i
    · subst hj
      simp only [setGrant, setValue, Function.update_self]
      omega
    · simp [setGrant, setValue, hj]

theorem change_give {g : γ} {i : σ} {v : Int} (hg : s.grant g = some ⟨some i, true⟩)
    (hv : give (s.value i) = some v) :
    Change s ((s.setValue i v).setGrant g (some ⟨some i, false⟩)) g (some ⟨some i, false⟩) := by
  obtain ⟨-, rfl⟩ := give_eq_some.mp hv
  refine ⟨rfl, fun j => ?_, fun j => ?_⟩
  · by_cases hj : j = i
    · subst hj
      simp [setGrant, setValue, holds, hg]
    · simp [setGrant, setValue, holds, hg, hj, Ne.symm hj]
  · by_cases hj : j = i
    · subst hj
      simp only [setGrant, setValue, Function.update_self]
      omega
    · simp [setGrant, setValue, hj]

/-- A grant that is replaced by one with the same permit, or by one without. -/
theorem change_set {g : γ} {o : Option (CSemaphoreGrant σ)}
    (h : ∀ i, holds i o = holds i (s.grant g)) : Change s (s.setGrant g o) g o where
  grant := rfl
  value i := by rw [h i]; rfl
  low _ := min_le_left _ _

/-- A call that may change whether its grant holds a permit. -/
def Regrants (s s' : Grants σ γ) (g : γ) : Prop :=
  ∃ gr b, s.grant g = some gr ∧ Change s s' g (some ⟨gr.sem, b⟩) ∧
    (Sound (some gr) → Sound (some ⟨gr.sem, b⟩))

theorem regrants_self {g : γ} {gr : CSemaphoreGrant σ} (hg : s.grant g = some gr) :
    Regrants s s g :=
  ⟨gr, gr.fHaveGrant, hg, hg ▸ Change.refl s g, id⟩

theorem acquire_regrants {g : γ} (h : s.acquire g = .ok s') : Regrants s s' g := by
  unfold acquire at h
  split at h
  · cases h
  · rename_i hg
    cases h
    exact regrants_self hg
  · cases h
  · rename_i i hg
    split at h
    · rename_i v hv
      cases h
      exact ⟨_, true, hg, change_take hg hv, fun _ => trivial⟩
    · cases h

theorem tryAcquire_regrants {g : γ} (h : s.tryAcquire g = .ok s') : Regrants s s' g := by
  unfold tryAcquire at h
  split at h
  · cases h
  · rename_i hg
    cases h
    exact regrants_self hg
  · cases h
  · rename_i i hg
    split at h
    · rename_i v hv
      cases h
      exact ⟨_, true, hg, change_take hg hv, fun _ => trivial⟩
    · cases h
      exact regrants_self hg

/-- After `Release` the grant holds nothing. -/
theorem release_change {g : γ} (h : s.release g = .ok s') :
    ∃ sem, Change s s' g (some ⟨sem, false⟩) := by
  unfold release at h
  split at h
  · cases h
  · rename_i sem hg
    cases h
    exact ⟨sem, hg ▸ Change.refl s g⟩
  · cases h
  · rename_i i hg
    split at h
    · rename_i v hv
      cases h
      exact ⟨some i, change_give hg hv⟩
    · cases h

/-! ## The invariant -/

variable [Fintype γ]

/-- What a semaphore has lent is what the grants hold. -/
structure Lent (init : σ → Int) (s : Grants σ γ) : Prop where
  conserved : ∀ i, s.value i + count (holds i) s.grant = init i
  low : ∀ i, min (init i) 0 ≤ s.value i
  sound : ∀ g, Sound (s.grant g)

namespace Lent

theorem change (h : Lent init s) {g : γ} {o : Option (CSemaphoreGrant σ)}
    (hc : Change s s' g o) (ho : Sound o) : Lent init s' := by
  refine ⟨fun i => ?_, fun i => ?_, fun g' => ?_⟩
  · have hcons := h.conserved i
    have hval := hc.value i
    have hcount := count_update (holds i) s.grant g o
    rw [hc.grant]
    omega
  · exact le_trans (le_min (h.low i) (min_le_right _ _)) (hc.low i)
  · rw [hc.grant]
    by_cases hg : g' = g
    · rw [hg, Function.update_self]
      exact ho
    · rw [Function.update_of_ne hg]
      exact h.sound g'

theorem regrants (h : Lent init s) {g : γ} (hr : Regrants s s' g) : Lent init s' := by
  obtain ⟨gr, b, hg, hc, hs⟩ := hr
  exact h.change hc (hs (hg ▸ h.sound g))

theorem release (h : Lent init s) {g : γ} (hr : s.release g = .ok s') : Lent init s' := by
  obtain ⟨sem, hc⟩ := release_change hr
  refine h.change hc ?_
  cases sem <;> trivial

theorem set (h : Lent init s) {g : γ} {o : Option (CSemaphoreGrant σ)}
    (ho : ∀ i, holds i o = holds i (s.grant g)) (hs : Sound o) :
    Lent init (s.setGrant g o) := h.change (change_set ho) hs

/-- The permit moves: `grant` holds none before, and `g` none afterwards. -/
theorem hand (h : Lent init s) {g grant : γ} {gr : CSemaphoreGrant σ}
    (hg : s.grant g = some gr) (hgrant : ∀ i, holds i (s.grant grant) = false) :
    Lent init ((s.setGrant grant (some gr)).setGrant g
      (some { gr with fHaveGrant := false })) := by
  have hnone : ∀ i, holds i (some { gr with fHaveGrant := false }) = false := by
    intro i
    cases gr.sem <;> rfl
  have hsound : Sound (some { gr with fHaveGrant := false }) := by
    cases gr.sem <;> trivial
  by_cases heq : grant = g
  · subst heq
    have h1 : Lent init (s.setGrant grant (some gr)) :=
      h.set (fun i => by rw [hg]) (hg ▸ h.sound grant)
    refine h1.set (fun i => ?_) hsound
    have hself : (s.setGrant grant (some gr)).grant grant = some gr := Function.update_self ..
    rw [hnone, hself, ← hg, hgrant]
  · refine ⟨fun i => ?_, h.low, fun g' => ?_⟩
    · have hcons := h.conserved i
      have h1 := count_update (holds i) s.grant grant (some gr)
      have h2 := count_update (holds i) (Function.update s.grant grant (some gr)) g
        (some { gr with fHaveGrant := false })
      rw [Function.update_of_ne (Ne.symm heq), hg, hnone] at h2
      rw [hgrant] at h1
      simp only [setGrant, Bool.toNat_false] at h1 h2 ⊢
      omega
    · simp only [setGrant]
      by_cases hg' : g' = g
      · rw [hg', Function.update_self]
        exact hsound
      · rw [Function.update_of_ne hg']
        by_cases hgr : g' = grant
        · rw [hgr, Function.update_self, ← hg]
          exact h.sound g
        · rw [Function.update_of_ne hgr]
          exact h.sound g'

theorem moveTo (h : Lent init s) {g grant : γ} (hm : s.moveTo g grant = .ok s') :
    Lent init s' := by
  unfold Grants.moveTo at hm
  split at hm
  · cases hm
  · cases hr : s.release grant with
    | error e =>
      rw [hr] at hm
      cases hm
    | ok s₁ =>
      rw [hr] at hm
      simp only [Except.bind] at hm
      obtain ⟨sem, hc⟩ := release_change hr
      split at hm
      · cases hm
      · rename_i gr hg
        cases hm
        refine (h.release hr).hand hg fun i => ?_
        rw [hc.grant, Function.update_self]
        cases sem <;> rfl

theorem call (h : Lent init s) {a : GrantAct σ γ} (ha : s.call a = .ok s') : Lent init s' := by
  cases a with
  | make g =>
    simp only [Grants.call, make] at ha
    split at ha
    · rename_i hg
      cases ha
      exact h.set (fun i => by rw [hg]; rfl) trivial
    · cases ha
  | makeOn g sema fTry =>
    simp only [Grants.call, makeOn] at ha
    split at ha
    · rename_i hg
      have h1 : Lent init (s.setGrant g (some ⟨some sema, false⟩)) :=
        h.set (fun i => by rw [hg]; rfl) trivial
      cases fTry with
      | true => exact h1.regrants (tryAcquire_regrants ha)
      | false => exact h1.regrants (acquire_regrants ha)
    · cases ha
  | acquire g => exact h.regrants (acquire_regrants ha)
  | release g => exact h.release ha
  | tryAcquire g => exact h.regrants (tryAcquire_regrants ha)
  | moveTo g grant => exact h.moveTo ha
  | destroy g =>
    simp only [Grants.call, destroy] at ha
    cases hr : s.release g with
    | error e =>
      rw [hr] at ha
      cases ha
    | ok s₁ =>
      rw [hr] at ha
      cases ha
      obtain ⟨sem, hc⟩ := release_change hr
      refine (h.release hr).set (fun i => ?_) trivial
      rw [hc.grant, Function.update_self]
      cases sem <;> rfl

end Lent

theorem lent_new : Lent init (grants γ init).init := by
  refine ⟨fun i => ?_, fun i => min_le_left _ _, fun g => trivial⟩
  have hcount : count (holds i) (fun _ : γ => (none : Option (CSemaphoreGrant σ))) = 0 :=
    total_eq_zero fun _ => rfl
  change init i + (count (holds i) fun _ : γ => none : Nat) = init i
  rw [hcount]
  exact Int.add_zero _

omit [Fintype γ] in
theorem call_of_step {a : GrantAct σ γ} (h : (grants γ init).step s a = some s') :
    s.call a = .ok s' := by
  change (s.call a).toOption = some s' at h
  cases hc : s.call a with
  | error e =>
    rw [hc] at h
    cases h
  | ok s₁ =>
    rw [hc] at h
    cases h
    rfl

theorem lent_of_reachable (hs : (grants γ init).Reachable s) : Lent init s :=
  hs.invariant lent_new fun _ _ _ h ha => h.call (call_of_step ha)

/-! ## No permit is lost, and no null pointer is read -/

/-- What a release does on a grant that holds a permit, or none. -/
theorem Lent.release_ok (h : Lent init s) (hinit : ∀ i, init i ≤ 2147483647) {g : γ}
    (hg : s.grant g ≠ none) : ∃ s', s.release g = .ok s' := by
  unfold Grants.release
  split
  · exact absurd ‹_› hg
  · exact ⟨_, rfl⟩
  · rename_i hnull
    have hsound := h.sound g
    rw [hnull] at hsound
    exact hsound.elim
  · rename_i i hheld
    -- the permit that comes back was lent, so the value is below the first one
    have hpos : 0 < count (holds i) s.grant := by
      rw [count_eq_card, Finset.card_pos]
      refine ⟨g, ?_⟩
      rw [Finset.mem_filter]
      exact ⟨Finset.mem_univ g, by rw [hheld]; simp [holds]⟩
    have hcons := h.conserved i
    have hle := hinit i
    rw [give, if_pos (by omega)]
    exact ⟨_, rfl⟩

theorem Lent.moveTo_ok (h : Lent init s) (hinit : ∀ i, init i ≤ 2147483647) {g grant : γ}
    (hg : s.grant g ≠ none) (hgrant : s.grant grant ≠ none) :
    ∃ s', s.moveTo g grant = .ok s' := by
  obtain ⟨s₁, hr⟩ := h.release_ok hinit hgrant
  obtain ⟨sem, hc⟩ := release_change hr
  have hthis : s₁.grant g ≠ none := by
    rw [hc.grant, Function.update_apply]
    split
    · exact Option.some_ne_none _
    · exact hg
  obtain ⟨gr, hgr⟩ := Option.ne_none_iff_exists'.mp hg
  obtain ⟨this, hthis⟩ := Option.ne_none_iff_exists'.mp hthis
  rw [Grants.moveTo, hgr, hr]
  simp only [Except.bind, hthis]
  exact ⟨_, rfl⟩

/-- What holds of grants and their semaphores. -/
structure Sane (init : σ → Int) (s : Grants σ γ) : Prop where
  conserved : ∀ i, s.value i + count (holds i) s.grant = init i
  bounded : ∀ i, 0 ≤ init i → (count (holds i) s.grant : Int) ≤ init i
  release : ∀ g, s.grant g ≠ none → ∃ s', s.release g = .ok s'
  destroy : ∀ g, s.grant g ≠ none → ∃ s', s.destroy g = .ok s'
  moveTo : ∀ g grant, s.grant g ≠ none → s.grant grant ≠ none → ∃ s', s.moveTo g grant = .ok s'
  nullSem : ∀ g, (s.acquire g = .error .nullSem ∨ s.tryAcquire g = .error .nullSem) ↔
    ∃ gr, s.grant g = some gr ∧ gr.sem = none

/-- **Grants keep the books of their semaphores.** After any calls on any number of
grants, moves onto oneself and onto a grant in use included, the value of a semaphore
and the grants that hold one of its permits add up to its first value. `Release`,
`MoveTo` and the destructor never go through a null pointer and never overflow the
value; `Acquire` and `TryAcquire` go through one exactly on a grant without semaphore. -/
theorem sane_of_reachable (hinit : ∀ i, init i ≤ 2147483647)
    (hs : (grants γ init).Reachable s) : Sane init s := by
  have h := lent_of_reachable hs
  refine ⟨h.conserved, fun i h0 => ?_, fun g hg => h.release_ok hinit hg, fun g hg => ?_,
    fun g grant hg hgrant => h.moveTo_ok hinit hg hgrant, fun g => ?_⟩
  · have hcons := h.conserved i
    have hlow := h.low i
    omega
  · obtain ⟨s₁, hr⟩ := h.release_ok hinit hg
    exact ⟨s₁.setGrant g none, by rw [Grants.destroy, hr]; rfl⟩
  · have hsound := h.sound g
    rw [acquire, tryAcquire]
    rcases hg : s.grant g with _ | ⟨_ | i, _ | _⟩
    · simp
    · simp
    · rw [hg] at hsound
      exact hsound.elim
    · cases hv : take (s.value i) <;> simp [hv]
    · simp

/-- A permit that is moved onto a grant that holds one: the latter goes back first. -/
theorem sane_after_move :
    ∃ s : Grants (Fin 1) (Fin 3), s.value 0 = 1 ∧ Sane (fun _ => 2) s := by
  have h : ((grants (Fin 3) fun _ : Fin 1 => 2).run (grants (Fin 3) fun _ => 2).init
      [.makeOn 0 0 false, .makeOn 1 0 true, .make 2, .moveTo 0 1, .moveTo 1 1, .tryAcquire 0,
        .moveTo 0 2, .destroy 1]).map (fun s => s.value 0) = some 1 := by decide
  obtain ⟨s, hs, hv⟩ := Option.map_eq_some_iff.mp h
  exact ⟨s, hv, sane_of_reachable (fun _ => by decide) ⟨_, hs⟩⟩

end Grants

end LearnFramework.Sync
