import Mathlib.Data.List.Basic
import Mathlib.Data.Option.Basic

/-!
# Labelled machines and their runs

A machine has one initial state and a partial step for each action. A run is a
finite list of actions. The library gives

* `run_append`, `run_concat`: how runs compose;
* `run_invariant`, `Reachable.invariant`, `Reachable.invariant_of_reachable`: what
  one step preserves, a run does;
* `run_length_le`: a run is no longer than a measure that its steps decrease, and
  `run_length_le_add`: some actions may pay for further steps; `run_countP_le` counts
  the actions of one kind;
* `run_forall₂`: two runs in step with each other; `run_filter` leaves out the actions
  that change nothing;
* `guarded`: the machine whose steps must also satisfy a guard, for statements
  about the runs that stay inside an assumption;
* `Simulates`: a machine whose every step is a step of another or a stutter,
  with the transfer of reachable states; `SimulatesBy` is the same for a relation;
* `Realizes`: a machine whose runs are, up to labels, runs of another.
-/

namespace Machines

/-- A deterministic step for each action; the nondeterminism is in the actions. -/
structure Machine (σ α : Type*) where
  init : σ
  step : σ → α → Option σ

namespace Machine

variable {σ α τ β : Type*}

/-- Execute a list of actions; `none` when one of them is not enabled. -/
def run (M : Machine σ α) : σ → List α → Option σ
  | s, [] => some s
  | s, a :: as => (M.step s a).bind fun t => M.run t as

def Reaches (M : Machine σ α) (s t : σ) : Prop := ∃ as, M.run s as = some t

def Reachable (M : Machine σ α) (t : σ) : Prop := M.Reaches M.init t

variable {M : Machine σ α}

@[simp] theorem run_nil (s : σ) : M.run s [] = some s := rfl

theorem run_cons (s : σ) (a : α) (as : List α) :
    M.run s (a :: as) = (M.step s a).bind fun t => M.run t as := rfl

theorem run_cons_some {s u : σ} {a : α} {as : List α} :
    M.run s (a :: as) = some u ↔ ∃ t, M.step s a = some t ∧ M.run t as = some u := by
  simp [run_cons, Option.bind_eq_some_iff]

theorem run_append (s : σ) (as bs : List α) :
    M.run s (as ++ bs) = (M.run s as).bind fun t => M.run t bs := by
  induction as generalizing s with
  | nil => rfl
  | cons a as ih =>
    simp only [List.cons_append, run_cons]
    cases M.step s a with
    | none => rfl
    | some t => exact ih t

theorem run_append_some {s t u : σ} {as bs : List α} (h : M.run s as = some t)
    (h' : M.run t bs = some u) : M.run s (as ++ bs) = some u := by
  rw [run_append, h]
  exact h'

theorem run_concat (s : σ) (as : List α) (a : α) :
    M.run s (as ++ [a]) = (M.run s as).bind fun t => M.step t a := by
  rw [run_append]
  cases M.run s as with
  | none => rfl
  | some t =>
    rw [Option.bind_some, Option.bind_some, run_cons]
    cases M.step t a <;> rfl

/-- **Invariant rule for runs.** -/
theorem run_invariant {I : σ → Prop}
    (hstep : ∀ s a t, I s → M.step s a = some t → I t)
    {s t : σ} {as : List α} (hs : I s) (h : M.run s as = some t) : I t := by
  induction as generalizing s with
  | nil =>
    cases h
    exact hs
  | cons a as ih =>
    obtain ⟨u, hu, hr⟩ := run_cons_some.mp h
    exact ih (hstep s a u hs hu) hr

/-- **Measure rule for runs.** -/
theorem run_length_le {I : σ → Prop} {μ : σ → Nat}
    (hstep : ∀ s a t, I s → M.step s a = some t → I t ∧ μ t < μ s)
    {s t : σ} {as : List α} (hs : I s) (h : M.run s as = some t) : as.length + μ t ≤ μ s := by
  induction as generalizing s with
  | nil =>
    cases h
    exact Nat.le_of_eq (Nat.zero_add _)
  | cons a as ih =>
    obtain ⟨u, hu, hr⟩ := run_cons_some.mp h
    obtain ⟨hI, hlt⟩ := hstep s a u hs hu
    have hle := ih hI hr
    rw [List.length_cons]
    omega

/-- **Measure rule with payments.** An action of the kind `p` may raise the measure: it
pays for `k` more steps. -/
theorem run_length_le_add {I : σ → Prop} {μ : σ → Nat} {p : α → Bool} {k : Nat}
    (hstep : ∀ s a t, I s → M.step s a = some t →
      I t ∧ μ t + 1 ≤ μ s + if p a = true then k else 0)
    {s t : σ} {as : List α} (hs : I s) (h : M.run s as = some t) :
    as.length + μ t ≤ μ s + k * as.countP p := by
  induction as generalizing s with
  | nil =>
    cases h
    rw [List.countP_nil, Nat.mul_zero]
    exact Nat.le_of_eq (Nat.zero_add _)
  | cons a as ih =>
    obtain ⟨u, hu, hr⟩ := run_cons_some.mp h
    obtain ⟨hI, hle⟩ := hstep s a u hs hu
    have hrest := ih hI hr
    rw [List.length_cons, List.countP_cons, Nat.mul_add]
    by_cases hp : p a = true
    · rw [if_pos hp] at hle ⊢
      omega
    · rw [if_neg hp] at hle ⊢
      omega

/-- **Count rule for runs.** The measure pays for each action of the kind `p`. -/
theorem run_countP_le {I : σ → Prop} {μ : σ → Nat} {p : α → Bool}
    (hstep : ∀ s a t, I s → M.step s a = some t →
      I t ∧ (μ t + if p a = true then 1 else 0) ≤ μ s)
    {s t : σ} {as : List α} (hs : I s) (h : M.run s as = some t) :
    as.countP p + μ t ≤ μ s := by
  induction as generalizing s with
  | nil =>
    cases h
    rw [List.countP_nil]
    exact Nat.le_of_eq (Nat.zero_add _)
  | cons a as ih =>
    obtain ⟨u, hu, hr⟩ := run_cons_some.mp h
    obtain ⟨hI, hle⟩ := hstep s a u hs hu
    have hrest := ih hI hr
    rw [List.countP_cons]
    omega

/-- **Rule for two runs.** What one step of each preserves, two runs in step with each
other do, and so each pair of their actions shows. -/
theorem run_forall₂ {N : Machine τ β} {I : σ → τ → Prop} {E Q : α → β → Prop}
    (hstep : ∀ s u a b t v, I s u → E a b → M.step s a = some t → N.step u b = some v →
      I t v ∧ Q a b)
    {s t : σ} {u v : τ} {as : List α} {bs : List β} (hI : I s u) (hE : List.Forall₂ E as bs)
    (h : M.run s as = some t) (h' : N.run u bs = some v) : List.Forall₂ Q as bs := by
  induction hE generalizing s u with
  | nil => exact .nil
  | cons hab _ ih =>
    obtain ⟨s₁, hs, hrun⟩ := run_cons_some.mp h
    obtain ⟨u₁, hu, hrun'⟩ := run_cons_some.mp h'
    obtain ⟨hI', hQ⟩ := hstep _ _ _ _ _ _ hI hab hs hu
    exact .cons hQ (ih hI' hrun hrun')

/-- Actions that change nothing can be left out. -/
theorem run_filter {p : α → Bool} (hp : ∀ s a t, p a = false → M.step s a = some t → t = s)
    {s t : σ} {as : List α} (h : M.run s as = some t) : M.run s (as.filter p) = some t := by
  induction as generalizing s with
  | nil => exact h
  | cons a as ih =>
    obtain ⟨u, hu, hr⟩ := run_cons_some.mp h
    cases ha : p a with
    | true =>
      rw [List.filter_cons_of_pos ha]
      exact run_cons_some.mpr ⟨u, hu, ih hr⟩
    | false =>
      obtain rfl := hp s a u ha hu
      rw [List.filter_cons_of_neg (by simp [ha])]
      exact ih hr

namespace Reaches

theorem refl (s : σ) : M.Reaches s s := ⟨[], rfl⟩

theorem step {s t : σ} {a : α} (h : M.step s a = some t) : M.Reaches s t :=
  ⟨[a], run_cons_some.mpr ⟨t, h, rfl⟩⟩

theorem trans {s t u : σ} (h : M.Reaches s t) (h' : M.Reaches t u) : M.Reaches s u := by
  obtain ⟨as, ha⟩ := h
  obtain ⟨bs, hb⟩ := h'
  exact ⟨as ++ bs, run_append_some ha hb⟩

theorem head {s t u : σ} {a : α} (h : M.step s a = some t) (h' : M.Reaches t u) :
    M.Reaches s u := (step h).trans h'

theorem tail {s t u : σ} {a : α} (h : M.Reaches s t) (h' : M.step t a = some u) :
    M.Reaches s u := h.trans (step h')

end Reaches

namespace Reachable

theorem init : M.Reachable M.init := Reaches.refl _

theorem step {s t : σ} {a : α} (hs : M.Reachable s) (h : M.step s a = some t) :
    M.Reachable t := hs.tail h

/-- **Invariant rule.** -/
theorem invariant {I : σ → Prop} (h0 : I M.init)
    (hstep : ∀ s a t, I s → M.step s a = some t → I t)
    {s : σ} (hs : M.Reachable s) : I s := by
  obtain ⟨as, h⟩ := hs
  exact run_invariant hstep h0 h

/-- Invariant rule for steps from reachable states, where the invariants that are
already known hold too. -/
theorem invariant_of_reachable {I : σ → Prop} (h0 : I M.init)
    (hstep : ∀ s a t, M.Reachable s → I s → M.step s a = some t → I t)
    {s : σ} (hs : M.Reachable s) : I s := by
  have hboth : M.Reachable s ∧ I s := by
    refine invariant (I := fun s => M.Reachable s ∧ I s) ⟨init, h0⟩ ?_ hs
    intro s a t h ha
    exact ⟨h.1.step ha, hstep s a t h.1 h.2 ha⟩
  exact hboth.2

end Reachable

/-- A state where a decidable property holds is found by executing the actions. -/
theorem reachable_of_run {p : σ → Bool} {as : List α}
    (h : (M.run M.init as).map p = some true) : ∃ s, M.Reachable s ∧ p s = true := by
  cases hr : M.run M.init as with
  | none => simp [hr] at h
  | some s =>
    simp only [hr, Option.map_some, Option.some.injEq] at h
    exact ⟨s, ⟨as, hr⟩, h⟩

/-! ## Guards -/

/-- The steps of `M` that satisfy `G`. -/
def guarded (M : Machine σ α) (G : σ → α → σ → Bool) : Machine σ α where
  init := M.init
  step s a := (M.step s a).filter fun t => G s a t

variable {G : σ → α → σ → Bool}

theorem guarded_step {s t : σ} {a : α} :
    (M.guarded G).step s a = some t ↔ M.step s a = some t ∧ G s a t = true := by
  simp only [guarded, Option.filter_eq_some_iff]

theorem run_of_guarded {s t : σ} {as : List α} (h : (M.guarded G).run s as = some t) :
    M.run s as = some t := by
  induction as generalizing s with
  | nil => exact h
  | cons a as ih =>
    obtain ⟨u, hu, hr⟩ := run_cons_some.mp h
    exact run_cons_some.mpr ⟨u, (guarded_step.mp hu).1, ih hr⟩

/-- A run whose actions all satisfy the guard. -/
theorem run_guarded {p : α → Bool} {s t : σ} {as : List α} (hp : ∀ a ∈ as, p a = true)
    (h : M.run s as = some t) : (M.guarded fun _ a _ => p a).run s as = some t := by
  induction as generalizing s with
  | nil => exact h
  | cons a as ih =>
    obtain ⟨hpa, hps⟩ := List.forall_mem_cons.mp hp
    obtain ⟨u, hu, hr⟩ := run_cons_some.mp h
    exact run_cons_some.mpr ⟨u, guarded_step.mpr ⟨hu, hpa⟩, ih hps hr⟩

theorem Reachable.of_guarded {s : σ} (h : (M.guarded G).Reachable s) : M.Reachable s := by
  obtain ⟨as, hr⟩ := h
  exact ⟨as, run_of_guarded hr⟩

/-! ## Simulations -/

/-- A map under which every step of `M` is a step of `N` or a stutter. -/
theorem Reaches.map {N : Machine τ β} {f : σ → τ}
    (h : ∀ s a t, M.step s a = some t → f t = f s ∨ ∃ b, N.step (f s) b = some (f t))
    {s t : σ} (hr : M.Reaches s t) : N.Reaches (f s) (f t) := by
  obtain ⟨as, ha⟩ := hr
  refine run_invariant (M := M) (I := fun u => N.Reaches (f s) (f u)) ?_ (.refl _) ha
  intro u a v hu hv
  rcases h u a v hv with he | ⟨b, hb⟩
  · rw [he]
    exact hu
  · exact hu.tail hb

/-- Every step of `M` is, through `f`, a step of `N` or a stutter. -/
structure Simulates (M : Machine σ α) (N : Machine τ β) (f : σ → τ) : Prop where
  init : f M.init = N.init
  step : ∀ s a t, M.step s a = some t → f t = f s ∨ ∃ b, N.step (f s) b = some (f t)

namespace Simulates

variable {N : Machine τ β} {f : σ → τ}

/-- A simulation carries reachable states to reachable states. -/
theorem reachable (h : Simulates M N f) {s : σ} (hs : M.Reachable s) : N.Reachable (f s) := by
  have hr := Reaches.map h.step hs
  rwa [h.init] at hr

/-- Guards that imply each other are simulated too. -/
theorem guarded (h : Simulates M N f) {H : τ → β → τ → Bool}
    (hg : ∀ s a t b, G s a t = true → H (f s) b (f t) = true) :
    Simulates (M.guarded G) (N.guarded H) f where
  init := h.init
  step s a t ht := by
    obtain ⟨hs, hG⟩ := guarded_step.mp ht
    rcases h.step s a t hs with he | ⟨b, hb⟩
    · exact Or.inl he
    · exact Or.inr ⟨b, guarded_step.mpr ⟨hb, hg s a t b hG⟩⟩

end Simulates

/-- Every step of `M` is matched by steps of `N`, through a relation of the states. -/
structure SimulatesBy (M : Machine σ α) (N : Machine τ β) (R : σ → τ → Prop) : Prop where
  init : R M.init N.init
  step : ∀ s a t u, R s u → M.step s a = some t → ∃ v, N.Reaches u v ∧ R t v

/-- Every reachable state has a reachable one that it is related to. -/
theorem SimulatesBy.reachable {N : Machine τ β} {R : σ → τ → Prop} (h : SimulatesBy M N R) {s : σ}
    (hs : M.Reachable s) : ∃ u, N.Reachable u ∧ R s u := by
  refine hs.invariant (I := fun s => ∃ u, N.Reachable u ∧ R s u) ⟨_, .init, h.init⟩ ?_
  rintro s a t ⟨u, hu, hR⟩ ht
  obtain ⟨v, hv, hR'⟩ := h.step s a t u hR ht
  exact ⟨v, hu.trans hv, hR'⟩

/-- Through `R`, a step of `M` with a label is the step of `N` with that action, and a step
without one is a stutter. -/
structure Realizes (M : Machine σ α) (N : Machine τ β) (label : α → Option β)
    (R : σ → τ → Prop) : Prop where
  init : R M.init N.init
  step : ∀ s a t u, R s u → M.step s a = some t → ∃ v, N.run u (label a).toList = some v ∧ R t v

/-- The labels of a run are a run. -/
theorem Realizes.run {N : Machine τ β} {label : α → Option β} {R : σ → τ → Prop}
    (h : Realizes M N label R) {s : σ} {as : List α} (hrun : M.run M.init as = some s) :
    ∃ u, N.run N.init (as.filterMap label) = some u ∧ R s u := by
  have hinit := h.init
  generalize M.init = s₀ at hinit hrun
  generalize N.init = u₀ at hinit ⊢
  induction as generalizing s₀ u₀ with
  | nil =>
    cases hrun
    exact ⟨u₀, rfl, hinit⟩
  | cons a as ih =>
    obtain ⟨t, ht, hr⟩ := run_cons_some.mp hrun
    obtain ⟨v, hv, hR⟩ := h.step s₀ a t u₀ hinit ht
    obtain ⟨u, hu, hR'⟩ := ih t hr v hR
    have hlabels : (a :: as).filterMap label = (label a).toList ++ as.filterMap label := by
      cases hl : label a <;> simp [hl]
    refine ⟨u, ?_, hR'⟩
    rw [hlabels]
    exact run_append_some hv hu

end Machine

end Machines
