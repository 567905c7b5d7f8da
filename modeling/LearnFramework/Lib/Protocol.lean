import Mathlib.Data.List.Infix

/-!
# Protocols over call logs

A protocol says which call is allowed after which ones. A log respects it when
each call is allowed by what stands before it, so a log is checked call by call
(`respects_concat`), and a violation is not undone by what follows
(`Respects.of_append`). `Since` is the operator that protocols with a memory are
written with.
-/

namespace Protocols

variable {α : Type*}

def Respects (allowed : List α → α → Prop) (log : List α) : Prop :=
  ∀ past c, past ++ [c] <+: log → allowed past c

variable {allowed : List α → α → Prop}

theorem respects_nil : Respects allowed [] := by
  intro past c h
  simp at h

theorem Respects.of_append {log more : List α} (h : Respects allowed (log ++ more)) :
    Respects allowed log := fun past c hp => h past c (hp.trans (List.prefix_append _ _))

theorem respects_concat {log : List α} {c : α} :
    Respects allowed (log ++ [c]) ↔ Respects allowed log ∧ allowed log c := by
  constructor
  · intro h
    exact ⟨h.of_append, h log c (List.prefix_refl _)⟩
  · rintro ⟨hlog, hc⟩ past b hp
    rcases List.prefix_concat_iff.mp hp with heq | hp
    · obtain ⟨rfl, hb⟩ := List.append_inj' heq rfl
      cases hb
      exact hc
    · exact hlog past b hp

/-! ## Since -/

/-- There is a call with `p`, and none behind it has `stop`. -/
def Since (p stop : α → Prop) (past : List α) : Prop :=
  ∃ before a after, past = before ++ a :: after ∧ p a ∧ ∀ b ∈ after, ¬stop b

variable {p stop : α → Prop}

theorem not_since_nil : ¬Since p stop [] := by
  rintro ⟨before, a, after, heq, -⟩
  simp at heq

theorem since_concat {past : List α} {a : α} :
    Since p stop (past ++ [a]) ↔ p a ∨ Since p stop past ∧ ¬stop a := by
  constructor
  · rintro ⟨before, b, after, heq, hb, hafter⟩
    rcases List.eq_nil_or_concat after with rfl | ⟨after, c, rfl⟩
    · obtain ⟨rfl, hab⟩ := List.append_inj' heq rfl
      cases hab
      exact Or.inl hb
    · have heq' : past ++ [a] = (before ++ b :: after) ++ [c] := by
        rw [heq, List.concat_eq_append, List.append_assoc, List.cons_append]
      obtain ⟨rfl, hac⟩ := List.append_inj' heq' rfl
      cases hac
      rw [List.concat_eq_append, List.forall_mem_append, List.forall_mem_singleton] at hafter
      exact Or.inr ⟨⟨before, b, after, rfl, hb, hafter.1⟩, hafter.2⟩
  · rintro (ha | ⟨⟨before, b, after, rfl, hb, hafter⟩, ha⟩)
    · exact ⟨past, a, [], rfl, ha, nofun⟩
    · refine ⟨before, b, after ++ [a], by simp, hb, ?_⟩
      rw [List.forall_mem_append, List.forall_mem_singleton]
      exact ⟨hafter, ha⟩

theorem since_concat_of_stop {past : List α} {a : α} (h : stop a) :
    Since p stop (past ++ [a]) ↔ p a := by
  rw [since_concat, or_iff_left fun hold => hold.2 h]

theorem since_concat_of_silent {past : List α} {a : α} (hp : ¬p a) (h : ¬stop a) :
    Since p stop (past ++ [a]) ↔ Since p stop past := by
  rw [since_concat, or_iff_right hp, and_iff_left h]

end Protocols
