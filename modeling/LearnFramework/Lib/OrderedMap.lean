import Mathlib

/-!
# Scans of an ordered map

`std::map` and `std::set` are `Std.TreeMap` and `Std.TreeSet`. What the standard
library has and Lean's does not is the scan from `lower_bound` to the first element
that fails a test, with each element erased as the iterator passes it. When the
test holds of an interval that starts at the bound, the scan meets exactly the
elements of the interval (`mem_takeWhile_dropWhile`), and erasing them leaves the
others (`getElem?_eraseAll`, `mem_eraseAll`).
-/

namespace OrderedMaps

open Std

section Lists

variable {α : Type*} {r : α → α → Prop} {before p : α → Bool} {l : List α} {x : α}

theorem mem_takeWhile (hl : l.Pairwise r) (hp : ∀ a b, r a b → p b → p a) :
    x ∈ l.takeWhile p ↔ x ∈ l ∧ p x := by
  induction l with
  | nil => simp
  | cons a l ih =>
    obtain ⟨ha, hl⟩ := List.pairwise_cons.mp hl
    cases hpa : p a with
    | true =>
      rw [List.takeWhile_cons_of_pos hpa, List.mem_cons, List.mem_cons, ih hl]
      constructor
      · rintro (rfl | ⟨hx, hpx⟩)
        · exact ⟨Or.inl rfl, hpa⟩
        · exact ⟨Or.inr hx, hpx⟩
      · rintro ⟨rfl | hx, hpx⟩
        · exact Or.inl rfl
        · exact Or.inr ⟨hx, hpx⟩
    | false =>
      rw [List.takeWhile_cons_of_neg (by simp [hpa])]
      refine iff_of_false (by simp) ?_
      rintro ⟨hx, hpx⟩
      rcases List.mem_cons.mp hx with rfl | hx
      · rw [hpa] at hpx
        cases hpx
      · rw [hp a x (ha x hx) hpx] at hpa
        cases hpa

/-- **The scan.** `before` says what stands in front of the bound, `p` what the scan
runs through. -/
theorem mem_takeWhile_dropWhile (hl : l.Pairwise r)
    (hbefore : ∀ a b, r a b → before b → before a) (hstart : ∀ a, p a → before a = false)
    (hp : ∀ a b, r a b → before a = false → p b → p a) :
    x ∈ (l.dropWhile before).takeWhile p ↔ x ∈ l ∧ p x := by
  induction l with
  | nil => simp
  | cons a l ih =>
    cases hb : before a with
    | true =>
      rw [List.dropWhile_cons_of_pos hb, ih (List.pairwise_cons.mp hl).2, List.mem_cons]
      constructor
      · rintro ⟨hx, hpx⟩
        exact ⟨Or.inr hx, hpx⟩
      · rintro ⟨rfl | hx, hpx⟩
        · rw [hstart x hpx] at hb
          cases hb
        · exact ⟨hx, hpx⟩
    | false =>
      rw [List.dropWhile_cons_of_neg (by simp [hb])]
      -- from here on nothing is in front of the bound, and `p` is closed downwards
      have hall : ∀ b ∈ a :: l, before b = false := by
        intro b hmem
        rcases List.mem_cons.mp hmem with rfl | hmem
        · exact hb
        · cases hbb : before b with
          | false => rfl
          | true =>
            rw [hbefore a b ((List.pairwise_cons.mp hl).1 b hmem) hbb] at hb
            cases hb
      have hr : (a :: l).Pairwise fun b c => r b c ∧ before b = false := by
        refine List.Pairwise.imp_of_mem ?_ hl
        intro b c hmem _ hbc
        exact ⟨hbc, hall b hmem⟩
      exact mem_takeWhile hr fun b c h => hp b c h.1 h.2

end Lists

section Erase

variable {α β : Type*} {cmp : α → α → Ordering} [TransCmp cmp] [LawfulEqCmp cmp] [DecidableEq α]

theorem getElem?_eraseAll (ks : List α) (m : TreeMap α β cmp) (k : α) :
    (ks.foldl (fun m k => m.erase k) m)[k]? = if k ∈ ks then none else m[k]? := by
  induction ks generalizing m with
  | nil => simp
  | cons a ks ih =>
    rw [List.foldl_cons, ih, TreeMap.getElem?_erase]
    simp only [LawfulEqCmp.compare_eq_iff_eq, List.mem_cons, eq_comm (a := a)]
    by_cases h : k ∈ ks <;> by_cases h' : k = a <;> simp [h, h']

omit [DecidableEq α] in
theorem mem_eraseAll (ks : List α) (m : TreeSet α cmp) (k : α) :
    k ∈ ks.foldl (fun m k => m.erase k) m ↔ k ∉ ks ∧ k ∈ m := by
  induction ks generalizing m with
  | nil => simp
  | cons a ks ih =>
    rw [List.foldl_cons, ih, TreeSet.mem_erase, List.mem_cons, not_or]
    simp only [ne_eq, LawfulEqCmp.compare_eq_iff_eq, eq_comm (a := a)]
    rw [and_left_comm, and_assoc]

end Erase

end OrderedMaps
