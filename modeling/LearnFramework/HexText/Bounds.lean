import LearnFramework.HexText.Codec

/-!
# The bounds of `hex_to_bin`

Every turn of the loop moves `ph` on by two characters, so from a text of odd length it
steps over the NUL when it gets that far. The commented-out assertion on `hex_len` would
rule such a text out.
-/

namespace LearnFramework.HexText

/-- No read behind the NUL, and at most `size` writes, all below `size`. -/
structure Inside (hex : List UInt8) (size : Nat) (s : HexToBin) : Prop where
  reads : ∀ i ∈ s.reads, i ≤ hex.length
  writes : ∀ i ∈ s.writes, i < size
  count : s.writes.length ≤ size

variable {hex behind : List UInt8} {size : Nat} {s : HexToBin}

theorem Inside.mono (h : Inside hex size s) {more : Nat} (hle : size ≤ more) :
    Inside hex more s :=
  ⟨h.reads, fun i hi => (h.writes i hi).trans_le hle, h.count.trans hle⟩

theorem Inside.read (h : Inside hex size s) (hph : s.ph ≤ hex.length) :
    Inside hex size { s with reads := s.reads ++ [s.ph] } := by
  refine ⟨?_, h.writes, h.count⟩
  intro i hi
  rcases List.mem_append.mp hi with hold | hnew
  · exact h.reads i hold
  · rw [List.mem_singleton.mp hnew]
    exact hph

theorem Inside.next (h : Inside hex s.bin s) (hph : s.ph < hex.length) :
    Inside hex (s.bin + 1) (s.next hex) := by
  constructor
  case reads =>
    intro i hi
    rw [HexToBin.next_reads, List.length_drop] at hi
    rcases List.mem_append.mp hi with hold | hnew
    · exact (h.read hph.le).reads i hold
    · have heq := List.mem_singleton.mp hnew
      omega
  case writes =>
    intro i hi
    rw [HexToBin.next_writes] at hi
    split at hi
    · rcases List.mem_append.mp hi with hold | hnew
      · exact Nat.lt_succ_of_lt (h.writes i hold)
      · rw [List.mem_singleton.mp hnew]
        exact Nat.lt_succ_self _
    · exact Nat.lt_succ_of_lt (h.writes i hi)
  case count =>
    have hcount := h.count
    rw [HexToBin.next_writes]
    split
    · rw [List.length_append, List.length_singleton]
      omega
    · omega

/-- The pointer meets the NUL, or the room ends in front of it. -/
theorem loop_inside (hnul : 0 ∉ hex) (room : Nat) (h : Inside hex s.bin s)
    (hph : s.ph ≤ hex.length)
    (hfit : (hex.length - s.ph) % 2 = 0 ∨ s.ph + 2 * room < hex.length) :
    ∃ s', HexToBin.loop (hex ++ 0 :: behind) room s = some s' ∧
      Inside hex (s.bin + room) s' := by
  induction room generalizing s with
  | zero => exact ⟨_, HexToBin.loop_stop hnul hph (Or.inl rfl), h.read hph⟩
  | succ room ih =>
    rcases Nat.lt_or_eq_of_le hph with hlt | hend
    · have hnext : (s.next hex).ph ≤ hex.length := by
        rw [HexToBin.next_ph]
        omega
      have hfit' : (hex.length - (s.next hex).ph) % 2 = 0 ∨
          (s.next hex).ph + 2 * room < hex.length := by
        rw [HexToBin.next_ph]
        omega
      obtain ⟨s', hloop, hs'⟩ := ih (h.next hlt) hnext hfit'
      refine ⟨s', (HexToBin.loop_next hnul hlt room).trans hloop, hs'.mono ?_⟩
      rw [HexToBin.next_bin]
      omega
    · exact ⟨_, HexToBin.loop_stop hnul hph (Or.inr hend),
        (h.read hph).mono (Nat.le_add_right _ _)⟩

/-! ## Behind the NUL -/

theorem turn_reads {memory : List UInt8} {s' : HexToBin} (h : s.turn memory = some s') :
    s.reads <+: s'.reads := by
  simp only [HexToBin.turn] at h
  split at h
  · rw [← Option.some.inj h, HexToBin.scan_reads]
    exact List.prefix_append _ _
  · cases h

/-- The loop reads at `ph` and forgets no read. -/
theorem loop_reads {memory : List UInt8} (room : Nat) {s' : HexToBin}
    (h : HexToBin.loop memory room s = some s') : s.reads ++ [s.ph] <+: s'.reads := by
  induction room generalizing s with
  | zero =>
    obtain ⟨r, htest, hr⟩ := Option.map_eq_some_iff.mp h
    obtain ⟨c, -, rfl⟩ := Option.map_eq_some_iff.mp htest
    exact hr ▸ List.prefix_rfl
  | succ room ih =>
    obtain ⟨r, htest, hr⟩ := Option.bind_eq_some_iff.mp h
    obtain ⟨c, -, rfl⟩ := Option.map_eq_some_iff.mp htest
    split at hr
    · obtain ⟨s₁, hturn, hloop⟩ := Option.bind_eq_some_iff.mp hr
      calc s.reads ++ [s.ph] <+: s₁.reads := turn_reads hturn
        _ <+: s₁.reads ++ [s₁.ph] := List.prefix_append _ _
        _ <+: s'.reads := ih hloop
    · exact Option.some.inj hr ▸ List.prefix_rfl

/-- With an odd number of characters to go and room for all of them, the pointer passes
the NUL. -/
theorem loop_outside (hnul : 0 ∉ hex) (room : Nat) (hph : s.ph < hex.length)
    (hodd : (hex.length - s.ph) % 2 = 1) (hroom : hex.length < s.ph + 2 * room)
    {s' : HexToBin} (h : HexToBin.loop (hex ++ 0 :: behind) room s = some s') :
    hex.length + 1 ∈ s'.reads := by
  induction room generalizing s with
  | zero => omega
  | succ room ih =>
    rw [HexToBin.loop_next hnul hph] at h
    by_cases hlast : s.ph + 1 = hex.length
    · have hread := (loop_reads room h).subset (List.mem_append_right _ List.mem_cons_self)
      rw [HexToBin.next_ph] at hread
      rwa [← hlast]
    · refine ih ?_ ?_ ?_ h
      all_goals
        rw [HexToBin.next_ph]
        omega

/-! ## The condition -/

theorem hexToBin_inside_iff (hnul : 0 ∉ hex) (behind dest : List UInt8) (binSize : Nat) :
    (∃ s, hexToBin (hex ++ 0 :: behind) dest binSize = some s ∧ Inside hex binSize s) ↔
      hex.length % 2 = 0 ∨ 2 * binSize < hex.length := by
  constructor
  · rintro ⟨s, hrun, hinside⟩
    by_contra hcond
    have hread : hex.length + 1 ∈ s.reads := by
      refine loop_outside hnul binSize ?_ ?_ ?_ hrun
      all_goals
        dsimp only
        omega
    have hbound := hinside.reads _ hread
    omega
  · intro hcond
    have hstart : Inside hex 0 ⟨0, 0, dest, [], []⟩ := by
      constructor
      case reads => simp
      case writes => simp
      case count => exact Nat.le_refl 0
    have hrun : ∃ s, hexToBin (hex ++ 0 :: behind) dest binSize = some s ∧
        Inside hex (0 + binSize) s := by
      refine loop_inside hnul binSize hstart (Nat.zero_le _) ?_
      dsimp only
      omega
    rwa [Nat.zero_add] at hrun

/-- Four digits, and room for one byte more than they hold. -/
theorem inside_four_digits :
    ∃ s, hexToBin [49, 102, 97, 48, 0] [7, 7, 7] 3 = some s ∧ Inside [49, 102, 97, 48] 3 s :=
  (hexToBin_inside_iff (show (0 : UInt8) ∉ [49, 102, 97, 48] by decide) [] [7, 7, 7] 3).mpr
    (Or.inl rfl)

/-- The text "a" with room for one byte: the loop goes on behind its NUL. -/
theorem odd_text_outside :
    ¬ ∃ s, hexToBin [97, 0, 0] [7] 1 = some s ∧ Inside [97] 1 s := by
  rintro ⟨s, hrun, hinside⟩
  have hread : 2 ∈ s.reads := by
    have hvalue : hexToBin [97, 0, 0] [7] 1 = some ⟨2, 1, [10], [0, 1, 2], [0]⟩ := by decide
    rw [hvalue] at hrun
    rw [← Option.some.inj hrun]
    decide
  exact absurd (hinside.reads 2 hread) (by decide)

end LearnFramework.HexText
