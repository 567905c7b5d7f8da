import LearnFramework.Kafka.Producer

/-!
# Accesses to the buffer

`buf[len-1]` is in range unless `strlen` is 0, and for a line that has been read
it is 0 only if the line starts with a NUL. Then the index wraps. So the accesses
are in range exactly when no chunk of `stdin` starts with a NUL byte.
-/

namespace LearnFramework.Kafka.Producer

open Machines Stdio

/-- The buffer has been used in its range. -/
structure InRange (s : Producer) : Prop where
  indices : ∀ i ∈ s.indices, i ≤ 511
  len : s.len ≤ 511
  handed : ∀ m ∈ s.handed, m.2 ≤ 511 ∧ m.1.length = m.2

/-- No chunk of the stream starts with a NUL. -/
def NoLeadingNul (stdin : List UInt8) : Prop := ∀ c ∈ chunks 511 stdin, c.head? ≠ some 0

/-- The state of `buf` behind `fgets`. -/
def HoldsLine (s : Producer) : Prop :=
  ∃ c r, s.buf.1 = c ++ 0 :: r ∧ c ≠ [] ∧ c.head? ≠ some 0

/-- What keeps the accesses in range. -/
structure Bounded (s : Producer) : Prop where
  inRange : s.InRange
  line : s.pc = .strip → s.HoldsLine
  rest : ∀ rest, s.stdin = some rest → NoLeadingNul rest

theorem InRange.stripped {s : Producer} (h : s.InRange) {len : Nat} {buf : Buffer 512}
    {indices : List Nat} (hlen : len ≤ 511) (hindices : ∀ i ∈ indices, i ≤ 511) :
    (s.stripped len buf indices).InRange where
  indices i hi := by
    rcases List.mem_append.mp hi with hi | hi
    · exact h.indices i hi
    · exact hindices i hi
  len := hlen
  handed := h.handed

/-- A line that does not start with a NUL has a positive length. -/
theorem InRange.strip {s : Producer} (h : s.InRange) (hline : s.HoldsLine) (stray : UInt8) :
    (s.strip stray).InRange := by
  obtain ⟨c, r, hbuf, hc, hhead⟩ := hline
  have hlt := length_lt_of_stored hbuf
  have hle : strlen s.buf.1 ≤ c.length := hbuf ▸ strlen_le c r
  have hpos : strlen s.buf.1 ≠ 0 := by
    rw [hbuf]
    exact mt (strlen_eq_zero_iff hc r).mp hhead
  have hlast : (strlen s.buf.1 + 2 ^ 64 - 1) % 2 ^ 64 = strlen s.buf.1 - 1 := by omega
  by_cases h10 : s.buf.1.getD (strlen s.buf.1 - 1) stray = 10
  · rw [strip_of_newline rfl hlast h10]
    exact h.stripped (by omega) (by simp; omega)
  · rw [strip_of_ne rfl hlast h10]
    exact h.stripped (by omega) (by simp; omega)

theorem InRange.produce {s : Producer} (h : s.InRange) (outcome : Outcome) :
    (s.produce outcome).InRange := by
  have hhanded : ∀ m ∈ s.handed ++ [(s.payload, s.len)], m.2 ≤ 511 ∧ m.1.length = m.2 := by
    intro m hm
    rcases List.mem_append.mp hm with hm | hm
    · exact h.handed m hm
    · rw [List.mem_singleton] at hm
      subst hm
      have hlen := h.len
      refine ⟨hlen, ?_⟩
      rw [payload, List.length_take, s.buf.2]
      omega
  cases outcome with
  | accepted => exact ⟨h.indices, h.len, hhanded⟩
  | queueFull => exact ⟨h.indices, h.len, hhanded⟩
  | failed => exact ⟨h.indices, h.len, hhanded⟩

theorem NoLeadingNul.next {rest : List UInt8} (h : NoLeadingNul rest) (hne : rest ≠ []) :
    (chunk 511 rest).head? ≠ some 0 ∧ NoLeadingNul (rest.drop (chunk 511 rest).length) := by
  rw [NoLeadingNul, chunks_of_ne_nil hne, List.forall_mem_cons] at h
  exact h

theorem Bounded.read {s : Producer} (h : s.Bounded) {rest : List UInt8}
    (hrest : s.stdin = some rest) : (s.read rest).Bounded := by
  by_cases hne : rest = []
  · subst hne
    rw [read_nil]
    exact ⟨⟨h.inRange.indices, h.inRange.len, h.inRange.handed⟩, by simp, h.rest⟩
  · rw [read_of_ne_nil s hne]
    obtain ⟨hhead, hnext⟩ := (h.rest rest hrest).next hne
    have hline : (s.stored rest).HoldsLine := ⟨_, _, rfl, chunk_ne_nil hne, hhead⟩
    refine ⟨⟨?_, h.inRange.len, h.inRange.handed⟩, fun _ => hline, ?_⟩
    · intro i hi
      rcases List.mem_append.mp hi with hi | hi
      · exact h.inRange.indices i hi
      · rw [List.mem_singleton.mp hi]
        exact length_chunk_le 511 rest
    · rintro _ ⟨⟩
      exact hnext

/-- What one step keeps. -/
theorem Bounded.step {s t : Producer} {a : Action} (h : s.Bounded) (hs : s.step a = some t) :
    t.Bounded := by
  cases step_cases hs with
  | start argc conf rk rkt hpc =>
    refine ⟨⟨h.inRange.indices, h.inRange.len, h.inRange.handed⟩, ?_, h.rest⟩
    simp only
    split <;> simp
  | testRun hpc =>
    refine ⟨⟨h.inRange.indices, h.inRange.len, h.inRange.handed⟩, ?_, h.rest⟩
    cases s.run <;> simp
  | fgets rest hpc hrest => exact h.read hrest
  | strip stray hpc =>
    refine ⟨h.inRange.strip (h.line hpc) stray, ?_, ?_⟩
    · obtain ⟨len, buf, indices, hstrip⟩ := strip_stripped s stray
      rw [hstrip, stripped]
      simp only
      split <;> simp
    · obtain ⟨len, buf, indices, hstrip⟩ := strip_stripped s stray
      rw [hstrip]
      exact h.rest
  | produce outcome hpc =>
    refine ⟨h.inRange.produce outcome, ?_, ?_⟩
    · cases outcome <;> simp [Producer.produce, hpc]
    · cases outcome <;> exact h.rest
  | flush hpc => exact ⟨⟨h.inRange.indices, h.inRange.len, h.inRange.handed⟩, by simp, h.rest⟩
  | stop hpc =>
    exact ⟨⟨h.inRange.indices, h.inRange.len, h.inRange.handed⟩, h.line, by simp⟩

variable {stdin : List UInt8} {buf : Buffer 512}

theorem bounded_of_reachable (h : NoLeadingNul stdin) {s : Producer}
    (hs : (producer stdin buf).Reachable s) : s.Bounded := by
  refine hs.invariant (I := Bounded) ?_ fun s a t hb ht => hb.step ht
  refine ⟨⟨by simp [producer], by simp [producer], by simp [producer]⟩, by simp [producer], ?_⟩
  rintro _ ⟨⟩
  exact h

/-! ## A leading NUL -/

/-- The index in front of the buffer, as a `size_t`. -/
theorem not_inRange_strip {s : Producer} {c r : List UInt8} (hbuf : s.buf.1 = c ++ 0 :: r)
    (hc : c ≠ []) (hhead : c.head? = some 0) (stray : UInt8) : ¬(s.strip stray).InRange := by
  have hlen : strlen s.buf.1 = 0 := by
    rw [hbuf]
    exact (strlen_eq_zero_iff hc r).mpr hhead
  have hwrap : (0 + 2 ^ 64 - 1) % 2 ^ 64 = 18446744073709551615 := rfl
  intro h
  by_cases h10 : s.buf.1.getD 18446744073709551615 stray = 10
  · rw [strip_of_newline hlen hwrap h10] at h
    exact absurd (h.indices 18446744073709551615 (by simp [stripped])) (by omega)
  · rw [strip_of_ne hlen hwrap h10] at h
    exact absurd (h.indices 18446744073709551615 (by simp [stripped])) (by omega)

/-- Every line is reached by a run in which the queue takes each message at once. -/
theorem noLeadingNul_of_atLoop (h : ∀ s, (producer stdin buf).Reachable s → s.InRange)
    {rest : List UInt8} {s : Producer} (hs : (producer stdin buf).Reachable s)
    (hloop : s.AtLoop rest) : NoLeadingNul rest := by
  induction rest using chunks.induct 511 generalizing s with
  | case1 => simp [NoLeadingNul]
  | case2 rest hne ih =>
    have hrun := hloop.run_line stdin buf hne 0
    have hline : (producer stdin buf).Reachable ((s.stored rest).strip 0) := hs.trans ⟨_, hrun⟩
    rw [NoLeadingNul, chunks_of_ne_nil hne, List.forall_mem_cons]
    constructor
    · intro hhead
      exact not_inRange_strip rfl (chunk_ne_nil hne) hhead 0 (h _ hline)
    · obtain ⟨len, buf', indices, hstrip⟩ := strip_stripped (s.stored rest) 0
      rw [hstrip] at hline
      by_cases hlen : len = 0
      · exact ih hline ⟨if_pos hlen, hloop.run, rfl⟩
      · obtain ⟨t, ht, htloop⟩ := run_retries stdin buf 0
          (s := (s.stored rest).stripped len buf' indices) (if_neg hlen) hloop.run rfl
        exact ih (hline.trans ⟨_, ht⟩) htloop

theorem reachable_loop (stdin : List UInt8) (buf : Buffer 512) :
    ∃ s, (producer stdin buf).Reachable s ∧ s.AtLoop stdin :=
  ⟨_, ⟨[.start 3 true true true], rfl⟩, rfl, rfl, rfl⟩

/-- **Accesses in range**, in every state of every run, exactly when no chunk of
`stdin` starts with a NUL. -/
theorem in_range_iff (stdin : List UInt8) (buf : Buffer 512) :
    (∀ s, (producer stdin buf).Reachable s → s.InRange) ↔
      ∀ c ∈ chunks 511 stdin, c.head? ≠ some 0 := by
  constructor
  · intro h
    obtain ⟨s, hs, hloop⟩ := reachable_loop stdin buf
    exact noLeadingNul_of_atLoop h hs hloop
  · intro h s hs
    exact (bounded_of_reachable h hs).inRange

/-- One NUL byte on `stdin`. -/
theorem nul_out_of_range :
    ¬∀ stdin buf s, (producer stdin buf).Reachable s → s.InRange := by
  intro h
  obtain ⟨s, hs, hloop⟩ := reachable_loop [0] ⟨List.replicate 512 0, List.length_replicate⟩
  have hno := noLeadingNul_of_atLoop (h _ _) hs hloop
  rw [NoLeadingNul, chunks_of_ne_nil (by simp), List.forall_mem_cons] at hno
  exact hno.1 rfl

end LearnFramework.Kafka.Producer
