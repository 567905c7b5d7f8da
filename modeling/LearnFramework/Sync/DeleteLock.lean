import LearnFramework.Sync.LockOrder
import Mathlib.Data.List.ProdSigma
import Mathlib.Tactic.Tauto

/-!
# `DeleteLock` and the invariant of `LockData`

`DeleteLock` looks for the pairs of a lock by their first component only, in
`lockorders` and in `invlockorders`. It finds all of them because the second set is
the converse of the first (`Consistent.converse`), which every push and every
deletion keeps.
-/

namespace LearnFramework.Sync

open Std (TransCmp LawfulEqCmp TreeMap TreeSet)
open OrderedMaps

namespace LockData

theorem compare_lt_iff (p q : Ptr × Ptr) :
    lexOrd.compare p q = .lt ↔ p.1 < q.1 ∨ p.1 = q.1 ∧ p.2 < q.2 := by
  change (compare p.1 q.1).then (compare p.2 q.2) = .lt ↔ _
  rw [Ordering.then_eq_lt, compare_lt_iff_lt, compare_eq_iff_eq, compare_lt_iff_lt]

/-- The scan from the lower bound of `(cs, 0)` meets all the keys that start with
`cs`, and no others. -/
theorem mem_scan {keys : List (Ptr × Ptr)} {cs : Ptr} {p : Ptr × Ptr}
    (h : keys.Pairwise fun p q => lexOrd.compare p q = .lt) :
    p ∈ (lowerBound (cs, 0) keys).takeWhile (fun it => it.1 = cs) ↔ p ∈ keys ∧ p.1 = cs := by
  rw [lowerBound, mem_takeWhile_dropWhile h, decide_eq_true_iff]
  · intro a b hab hb
    rw [Ordering.isLT_iff_eq_lt] at hb ⊢
    exact TransCmp.lt_trans hab hb
  · intro a ha
    rw [decide_eq_true_iff] at ha
    rw [← Bool.not_eq_true, Ordering.isLT_iff_eq_lt, compare_lt_iff]
    rintro (h | ⟨-, h⟩)
    · exact absurd h (ha ▸ lt_irrefl a.1)
    · exact Nat.not_lt_zero _ h
  · intro a b hab ha hb
    rw [decide_eq_true_iff] at hb ⊢
    rw [← Bool.not_eq_true, Ordering.isLT_iff_eq_lt, compare_lt_iff] at ha
    rw [compare_lt_iff] at hab
    rcases hab with h | ⟨h, -⟩
    · exact absurd (Or.inl (hb ▸ h)) ha
    · exact h.trans hb

theorem deleteOrders_eq (cs : Ptr) (l : List (Ptr × Ptr)) (d : LockData) :
    deleteOrders cs l d = { d with
      lockorders :=
        (l.takeWhile fun it => it.1 = cs).foldl (fun m k => m.erase k) d.lockorders
      invlockorders :=
        ((l.takeWhile fun it => it.1 = cs).map Prod.swap).foldl (fun m k => m.erase k)
          d.invlockorders } := by
  induction l generalizing d with
  | nil => rfl
  | cons it rest ih =>
    rw [deleteOrders]
    by_cases h : it.1 = cs
    · rw [if_pos h, ih, List.takeWhile_cons_of_pos (by simpa using h)]
      rfl
    · rw [if_neg h, List.takeWhile_cons_of_neg (by simpa using h)]
      rfl

theorem deleteInvOrders_eq (cs : Ptr) (l : List (Ptr × Ptr)) (d : LockData) :
    deleteInvOrders cs l d = { d with
      lockorders :=
        ((l.takeWhile fun it => it.1 = cs).map Prod.swap).foldl (fun m k => m.erase k)
          d.lockorders
      invlockorders :=
        (l.takeWhile fun it => it.1 = cs).foldl (fun m k => m.erase k) d.invlockorders } := by
  induction l generalizing d with
  | nil => rfl
  | cons it rest ih =>
    rw [deleteInvOrders]
    by_cases h : it.1 = cs
    · rw [if_pos h, ih, List.takeWhile_cons_of_pos (by simpa using h)]
      rfl
    · rw [if_neg h, List.takeWhile_cons_of_neg (by simpa using h)]
      rfl

/-- The invariant of `LockData` while the program runs. -/
structure Consistent (d : LockData) : Prop where
  converse : ∀ a b, (b, a) ∈ d.invlockorders ↔ (a, b) ∈ d.lockorders
  asymm : ∀ a b, (a, b) ∈ d.lockorders → (b, a) ∉ d.lockorders
  shown : ∀ a b s, d.lockorders[(a, b)]? = some s → InOrder a b s

theorem consistent_new : Consistent new where
  converse _ _ := iff_of_false TreeSet.not_mem_emptyc TreeMap.not_mem_emptyc
  asymm _ _ h := absurd h TreeMap.not_mem_emptyc
  shown _ _ _ h := absurd (mem_of_getElem? h) TreeMap.not_mem_emptyc

variable {d d' : LockData} {cs : Ptr}

/-- What the first loop leaves. -/
theorem deleteOrders_spec (h : Consistent d) (cs : Ptr) :
    let d₁ := deleteOrders cs (lowerBound (cs, 0) d.lockorders.keys) d
    (∀ p : Ptr × Ptr, d₁.lockorders[p]? = if p.1 = cs then none else d.lockorders[p]?) ∧
      ∀ a b, (b, a) ∈ d₁.invlockorders ↔ (b, a) ∈ d.invlockorders ∧ a ≠ cs := by
  intro d₁
  have hscan : ∀ p : Ptr × Ptr, p ∈ (lowerBound (cs, 0) d.lockorders.keys).takeWhile
      (fun it => it.1 = cs) ↔ p ∈ d.lockorders ∧ p.1 = cs := by
    intro p
    rw [mem_scan TreeMap.ordered_keys, TreeMap.mem_keys]
  refine ⟨fun p => ?_, fun a b => ?_⟩
  · simp only [d₁, deleteOrders_eq, getElem?_eraseAll, hscan]
    by_cases hmem : p ∈ d.lockorders
    · simp only [hmem, true_and]
    · simp only [hmem, false_and, TreeMap.getElem?_eq_none hmem, ite_self]
  · simp only [d₁, deleteOrders_eq, mem_eraseAll, List.mem_map_swap, hscan, h.converse]
    tauto

/-- **`DeleteLock`.** It removes the pairs that mention the lock, on either side. -/
theorem deleteLock_spec (cs : Ptr) (hav : d.available = true) (h : Consistent d) :
    (∀ p : Ptr × Ptr, (deleteLock cs d).lockorders[p]? =
      if p.1 = cs ∨ p.2 = cs then none else d.lockorders[p]?) ∧
      ∀ a b, (b, a) ∈ (deleteLock cs d).invlockorders ↔
        (b, a) ∈ d.invlockorders ∧ a ≠ cs ∧ b ≠ cs := by
  obtain ⟨hord, hinv⟩ := deleteOrders_spec h cs
  have heq : deleteLock cs d =
      let d₁ := deleteOrders cs (lowerBound (cs, 0) d.lockorders.keys) d
      deleteInvOrders cs (lowerBound (cs, 0) d₁.invlockorders.toList) d₁ := if_pos hav
  rw [heq]
  generalize deleteOrders cs (lowerBound (cs, 0) d.lockorders.keys) d = d₁ at hord hinv ⊢
  have hscan : ∀ a b, (b, a) ∈ (lowerBound (cs, 0) d₁.invlockorders.toList).takeWhile
      (fun it => it.1 = cs) ↔ (a, b) ∈ d.lockorders ∧ a ≠ cs ∧ b = cs := by
    intro a b
    rw [mem_scan TreeSet.ordered_toList, TreeSet.mem_toList, hinv, h.converse, and_assoc]
  refine ⟨?_, fun a b => ?_⟩
  · rintro ⟨a, b⟩
    simp only [deleteInvOrders_eq, getElem?_eraseAll, List.mem_map_swap, hscan, hord]
    by_cases hmem : (a, b) ∈ d.lockorders
    · by_cases ha : a = cs
      · simp [ha]
      · by_cases hb : b = cs <;> simp [hmem, ha, hb]
    · simp [TreeMap.getElem?_eq_none hmem]
  · simp only [deleteInvOrders_eq, mem_eraseAll, hscan, hinv, h.converse]
    tauto

theorem mem_deleteLock (cs : Ptr) (hav : d.available = true) (h : Consistent d) (a b : Ptr) :
    (a, b) ∈ (deleteLock cs d).lockorders ↔ (a, b) ∈ d.lockorders ∧ a ≠ cs ∧ b ≠ cs := by
  rw [TreeMap.mem_iff_isSome_getElem?, (deleteLock_spec cs hav h).1,
    TreeMap.mem_iff_isSome_getElem?]
  by_cases ha : a = cs <;> by_cases hb : b = cs <;> simp [ha, hb]

theorem Consistent.deleteLock (h : Consistent d) (cs : Ptr) :
    Consistent (LockData.deleteLock cs d) := by
  by_cases hav : d.available = true
  · obtain ⟨hord, hinv⟩ := deleteLock_spec cs hav h
    have hmem := mem_deleteLock cs hav h
    refine ⟨fun a b => ?_, fun a b hab hba => ?_, fun a b s hs => ?_⟩
    · rw [hinv, hmem, h.converse]
    · exact h.asymm a b ((hmem a b).mp hab).1 ((hmem b a).mp hba).1
    · rw [hord] at hs
      split at hs
      · cases hs
      · exact h.shown a b s hs
  · rw [LockData.deleteLock, if_neg hav]
    exact h

namespace Recorded

variable {c : Ptr} {lockstack : LockStack} {before : List Ptr}

theorem mem (hr : Recorded c lockstack before d d') (p : Ptr × Ptr) :
    p ∈ d'.lockorders ↔ p ∈ d.lockorders ∨ p.2 = c ∧ p.1 ∈ before := by
  rw [TreeMap.mem_iff_isSome_getElem?, hr.orders p]
  by_cases hp : p ∈ d.lockorders
  · simp only [hp, not_true_eq_false, false_and, if_false, true_or, iff_true]
    exact TreeMap.mem_iff_isSome_getElem?.mp hp
  · simp only [hp, not_false_eq_true, true_and, false_or]
    by_cases hc : p.2 = c ∧ p.1 ∈ before
    · simp [hc]
    · simp [hc, TreeMap.getElem?_eq_none hp]

theorem consistent (hr : Recorded c lockstack before d d') (h : Consistent d)
    (hbefore : ∀ a ∈ before, InOrder a c lockstack) : Consistent d' where
  converse a b := by
    rw [hr.inv, hr.mem, h.converse]
    by_cases hab : (a, b) ∈ d.lockorders <;> simp [hab]
  asymm a b hab hba := by
    rw [hr.mem] at hab hba
    simp only at hab hba
    rcases hab with hab | ⟨rfl, ha⟩
    · rcases hba with hba | ⟨rfl, hb⟩
      · exact h.asymm a b hab hba
      · by_cases hold : (b, a) ∈ d.lockorders
        · exact h.asymm a b hab hold
        · exact hr.fresh b hb hold hab
    · rcases hba with hba | ⟨rfl, hb⟩
      · by_cases hold : (a, b) ∈ d.lockorders
        · exact h.asymm a b hold hba
        · exact hr.fresh a ha hold hba
      · exact ne_of_mem_front (hbefore _ ha).1 rfl
  shown a b s hs := by
    rw [hr.orders] at hs
    split at hs
    · rename_i hnew
      obtain ⟨-, hb, ha⟩ := hnew
      cases hs
      simp only at ha hb
      rw [hb]
      exact hbefore a ha
    · exact h.shown a b s hs

end Recorded

end LockData

end LearnFramework.Sync
