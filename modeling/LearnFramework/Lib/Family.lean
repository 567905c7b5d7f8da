import Mathlib.Algebra.BigOperators.Group.Finset.Basic
import Mathlib.Algebra.BigOperators.Group.Finset.Piecewise
import Mathlib.Algebra.Order.BigOperators.Group.Finset
import Mathlib.Algebra.Ring.Nat
import Mathlib.Data.Fintype.Card

/-! Families of local states indexed by a finite type: the sum of a weight over them
and the number of those with a property, when one local state changes. -/

namespace Families

variable {κ γ M : Type*} [Fintype κ] [AddCommMonoid M]

/-- The total weight of a family of local states. -/
def total (w : γ → M) (f : κ → γ) : M := ∑ i, w (f i)

/-- A replacement of equal weight leaves the total. -/
theorem total_congr {w : γ → M} {f g : κ → γ} (h : ∀ i, w (f i) = w (g i)) :
    total w f = total w g := Finset.sum_congr rfl fun i _ => h i

theorem total_eq_zero {w : γ → M} {f : κ → γ} (h : ∀ i, w (f i) = 0) : total w f = 0 :=
  Finset.sum_eq_zero fun i _ => h i

theorem total_le {w : γ → Nat} {b : Nat} {f : κ → γ} (h : ∀ i, w (f i) ≤ b) :
    total w f ≤ Fintype.card κ * b := by
  have hle := Finset.sum_le_card_nsmul Finset.univ (fun i => w (f i)) b fun i _ => h i
  rw [Finset.card_univ] at hle
  exact hle

/-- The number of local states with a property. -/
def count (p : γ → Bool) (f : κ → γ) : Nat := total (fun c => (p c).toNat) f

theorem count_eq_card (p : γ → Bool) (f : κ → γ) :
    count p f = (Finset.univ.filter fun i => p (f i) = true).card := by
  rw [Finset.card_filter]
  refine Finset.sum_congr rfl fun i _ => ?_
  cases hp : p (f i) <;> simp [hp]

theorem count_le_card (p : γ → Bool) (f : κ → γ) : count p f ≤ Fintype.card κ := by
  rw [count_eq_card]
  exact Finset.card_le_univ _

theorem count_lt_card {p : γ → Bool} {f : κ → γ} {i : κ} (h : p (f i) = false) :
    count p f < Fintype.card κ := by
  rw [count_eq_card]
  refine Finset.card_lt_univ_of_notMem (x := i) ?_
  simp [h]

variable [DecidableEq κ]

/-- One local state is replaced: the old weight leaves, the new one enters. -/
theorem total_update (w : γ → M) (f : κ → γ) (t : κ) (c : γ) :
    total w (Function.update f t c) + w (f t) = total w f + w c := by
  unfold total
  rw [← Finset.add_sum_erase _ _ (Finset.mem_univ t),
    ← Finset.add_sum_erase (s := Finset.univ) (f := fun i => w (f i)) (Finset.mem_univ t)]
  have hrest : ∑ i ∈ Finset.univ.erase t, w (Function.update f t c i) =
      ∑ i ∈ Finset.univ.erase t, w (f i) := by
    apply Finset.sum_congr rfl
    intro i hi
    rw [Function.update_of_ne (Finset.ne_of_mem_erase hi)]
  rw [hrest, Function.update_self]
  ac_rfl

theorem total_update_of_eq {w : γ → M} {f : κ → γ} {t : κ} {c : γ} (h : w c = w (f t)) :
    total w (Function.update f t c) = total w f := by
  apply total_congr
  intro i
  by_cases hi : i = t
  · subst i
    rw [Function.update_self, h]
  · rw [Function.update_of_ne hi]

theorem count_update (p : γ → Bool) (f : κ → γ) (t : κ) (c : γ) :
    count p (Function.update f t c) + (p (f t)).toNat = count p f + (p c).toNat :=
  total_update ..

end Families
