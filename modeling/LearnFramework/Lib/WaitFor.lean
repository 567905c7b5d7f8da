import Mathlib.Data.Fintype.Card
import Mathlib.Data.Fintype.EquivFin
import Mathlib.Logic.Relation
import Mathlib.Order.WellFounded

/-!
# Waits-for graphs

Each thread asks for at most one resource at a time, and a resource has at most one
owner. When what a blocked thread owns stands before what it asks for in some
relation `R`, a cycle of threads that wait for each other is a cycle of `R`
(`transGen_wants`). So an asymmetric `R` excludes two threads that wait for each
other (`not_waitsFor_of_waitsFor`), and an `R` without cycles excludes a deadlock:
of finitely many threads, some thread that the others wait for is not blocked
(`exists_not_blocked`).
-/

namespace WaitFor

open Relation

structure Requests (ι ρ : Type*) where
  wants : ι → Option ρ
  owner : ρ → Option ι

namespace Requests

variable {ι ρ : Type*} (g : Requests ι ρ)

def WaitsFor (t u : ι) : Prop := t ≠ u ∧ ∃ c, g.wants t = some c ∧ g.owner c = some u

def Blocked (t : ι) : Prop := ∃ u, g.WaitsFor t u

/-- What a blocked thread owns stands before what it asks for. -/
def Ordered (R : ρ → ρ → Prop) : Prop :=
  ∀ t c a, g.Blocked t → g.wants t = some c → g.owner a = some t → R a c

variable {g} {R : ρ → ρ → Prop} {t u v : ι} {c d : ρ}

theorem WaitsFor.wants (h : g.WaitsFor t u) : ∃ c, g.wants t = some c := by
  obtain ⟨-, c, hc, -⟩ := h
  exact ⟨c, hc⟩

theorem WaitsFor.owner (h : g.WaitsFor t u) (hc : g.wants t = some c) :
    g.owner c = some u := by
  obtain ⟨-, d, hd, ho⟩ := h
  rw [hc] at hd
  cases hd
  exact ho

/-- One edge of the graph is one pair of the relation. -/
theorem Ordered.rel (hR : g.Ordered R) (h : g.WaitsFor t u) (hu : g.Blocked u)
    (hc : g.wants t = some c) (hd : g.wants u = some d) : R c d :=
  hR u d c hu hd (h.owner hc)

theorem Ordered.transGen_wants (hR : g.Ordered R) (h : TransGen g.WaitsFor t u)
    (hu : g.Blocked u) (hc : g.wants t = some c) (hd : g.wants u = some d) :
    TransGen R c d := by
  induction h generalizing d with
  | single h => exact TransGen.single (hR.rel h hu hc hd)
  | tail _ h ih =>
    obtain ⟨e, he⟩ := h.wants
    exact (ih ⟨_, h⟩ he).tail (hR.rel h hu he hd)

theorem Ordered.not_waitsFor_of_waitsFor (hR : g.Ordered R) (hasymm : ∀ a b, R a b → ¬R b a)
    (h : g.WaitsFor t u) : ¬g.WaitsFor u t := by
  intro h'
  obtain ⟨c, hc⟩ := h.wants
  obtain ⟨d, hd⟩ := h'.wants
  exact hasymm c d (hR.rel h ⟨t, h'⟩ hc hd) (hR.rel h' ⟨u, h⟩ hd hc)

theorem Ordered.not_transGen_self (hR : g.Ordered R) (hacyc : ∀ c, ¬TransGen R c c) (t : ι) :
    ¬TransGen g.WaitsFor t t := by
  intro h
  obtain ⟨u, htu, -⟩ := TransGen.head'_iff.mp h
  obtain ⟨c, hc⟩ := htu.wants
  exact hacyc c (hR.transGen_wants h ⟨u, htu⟩ hc hc)

/-- **Deadlock freedom.** Along the waits-for edges every thread comes to one that is
not blocked. -/
theorem exists_not_blocked [Finite ι] (hacyc : ∀ t, ¬TransGen g.WaitsFor t t) (t : ι) :
    ∃ u, ReflTransGen g.WaitsFor t u ∧ ¬g.Blocked u := by
  let later : ι → ι → Prop := fun u v => TransGen g.WaitsFor v u
  have hwf : WellFounded later := by
    have htrans : IsTrans ι later := ⟨fun _ _ _ h h' => h'.trans h⟩
    have hirrefl : Std.Irrefl later := ⟨hacyc⟩
    exact Finite.wellFounded_of_trans_of_irrefl later
  obtain ⟨u, hu, hmin⟩ := hwf.has_min {u | ReflTransGen g.WaitsFor t u} ⟨t, .refl⟩
  refine ⟨u, hu, ?_⟩
  rintro ⟨v, huv⟩
  exact hmin v (ReflTransGen.tail hu huv) (TransGen.single huv)

end Requests

end WaitFor
