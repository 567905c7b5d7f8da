import Mathlib.Algebra.Ring.Nat
import Mathlib.Data.List.Basic
import Mathlib.Data.List.TakeWhile

/-!
# Line input of the C library

`strlen` and `fgets` over lists of bytes. A stream is read in chunks: each one
ends behind a newline, or is as long as the buffer allows, or is the last one.
With room for `n` characters the texts of the chunks are the lines of the stream
exactly when no line is longer than `n` (`texts_eq_lines_iff`).
-/

namespace Stdio

/-- The position of the first NUL; the length of a buffer that has none. -/
def strlen (buf : List UInt8) : Nat := buf.idxOf 0

/-- What one call takes from a stream, with room for `n` characters. -/
def chunk (n : Nat) (s : List UInt8) : List UInt8 :=
  let t := s.take n
  t.take (t.idxOf 10 + 1)

/-! ## Chunks -/

theorem prefix_chunk (n : Nat) (s : List UInt8) : chunk n s <+: s :=
  (List.take_prefix _ _).trans (List.take_prefix _ _)

theorem chunk_append_drop (n : Nat) (s : List UInt8) :
    chunk n s ++ s.drop (chunk n s).length = s :=
  List.prefix_iff_eq_append.mp (prefix_chunk n s)

theorem length_chunk_le (n : Nat) (s : List UInt8) : (chunk n s).length ≤ n := by
  simp only [chunk, List.length_take]
  omega

theorem chunk_ne_nil {n : Nat} [NeZero n] {s : List UInt8} (hs : s ≠ []) : chunk n s ≠ [] := by
  obtain ⟨c, s, rfl⟩ := List.exists_cons_of_ne_nil hs
  simp [chunk, NeZero.ne n]

/-- A chunk ends behind the first newline, if that is in reach. -/
theorem chunk_of_newline {n : Nat} {l : List UInt8} (hl : 10 ∉ l) (hn : l.length < n)
    (rest : List UInt8) : chunk n (l ++ 10 :: rest) = l ++ [10] := by
  obtain ⟨k, rfl⟩ : ∃ k, n = l.length + 1 + k := ⟨n - l.length - 1, by omega⟩
  have ht : (l ++ 10 :: rest).take (l.length + 1 + k) = l ++ 10 :: rest.take k := by
    rw [Nat.add_assoc, List.take_length_add_append, Nat.add_comm 1 k, List.take_succ_cons]
  have hidx : (l ++ 10 :: rest.take k).idxOf 10 = l.length := by
    rw [List.idxOf_append_of_notMem hl, List.idxOf_cons_self, Nat.add_zero]
  rw [chunk, ht, hidx, List.take_length_add_append]
  rfl

/-- Without a newline in reach, it is as long as can be. -/
theorem chunk_of_notMem {n : Nat} {s : List UInt8} (h : 10 ∉ s.take n) : chunk n s = s.take n := by
  rw [chunk, List.idxOf_of_notMem h]
  exact List.take_of_length_le (by omega)

/-! ## Buffers -/

variable {k : Nat}

/-- An array of `n` characters. -/
abbrev Buffer (n : Nat) := { b : List UInt8 // b.length = n }

/-- `buf[i] = c`; outside of the buffer the write is lost. -/
def Buffer.set (buf : Buffer k) (i : Nat) (c : UInt8) : Buffer k :=
  ⟨buf.1.set i c, by rw [List.length_set, buf.2]⟩

/-- The string that `fgets` stores, with its NUL. -/
def store (buf : Buffer (k + 1)) (s : List UInt8) : Buffer (k + 1) :=
  ⟨chunk k s ++ 0 :: buf.1.drop ((chunk k s).length + 1), by
    have hle := length_chunk_le k s
    rw [List.length_append, List.length_cons, List.length_drop, buf.2]
    omega⟩

/-- `fgets(buf, sizeof(buf), s)`: the buffer and the rest of the stream, or `none`
at its end. -/
def fgets (buf : Buffer (k + 1)) (s : List UInt8) : Option (Buffer (k + 1) × List UInt8) :=
  if s = [] then none else some (store buf s, s.drop (chunk k s).length)

theorem fgets_of_ne_nil (buf : Buffer (k + 1)) {s : List UInt8} (hs : s ≠ []) :
    fgets buf s = some (store buf s, s.drop (chunk k s).length) := if_neg hs

theorem strlen_le (c r : List UInt8) : strlen (c ++ 0 :: r) ≤ c.length := by
  by_cases h : 0 ∈ c
  · rw [strlen, List.idxOf_append_of_mem h]
    exact List.idxOf_le_length
  · rw [strlen, List.idxOf_append_of_notMem h]
    simp

theorem strlen_of_notMem {c : List UInt8} (h : 0 ∉ c) (r : List UInt8) :
    strlen (c ++ 0 :: r) = c.length := by
  rw [strlen, List.idxOf_append_of_notMem h, List.idxOf_cons_self, Nat.add_zero]

/-- A string that is not empty has length 0 when it starts with a NUL. -/
theorem strlen_eq_zero_iff {c : List UInt8} (hc : c ≠ []) (r : List UInt8) :
    strlen (c ++ 0 :: r) = 0 ↔ c.head? = some 0 := by
  obtain ⟨b, c, rfl⟩ := List.exists_cons_of_ne_nil hc
  rw [strlen, List.cons_append, List.idxOf_cons]
  by_cases hb : b = 0
  · simp [hb]
  · simp [hb, beq_false_of_ne hb]

/-! ## Streams -/

/-- All the chunks of a stream. -/
def chunks (n : Nat) [NeZero n] (s : List UInt8) : List (List UInt8) :=
  if _h : s = [] then []
  else chunk n s :: chunks n (s.drop (chunk n s).length)
termination_by s.length
decreasing_by
  have hc := List.length_pos_iff.mpr (chunk_ne_nil (n := n) _h)
  have hs := List.length_pos_iff.mpr _h
  rw [List.length_drop]
  omega

variable {n : Nat} [NeZero n]

@[simp] theorem chunks_nil (n : Nat) [NeZero n] : chunks n [] = [] := by rw [chunks, dif_pos rfl]

theorem chunks_of_ne_nil {s : List UInt8} (h : s ≠ []) :
    chunks n s = chunk n s :: chunks n (s.drop (chunk n s).length) := by
  rw [chunks, dif_neg h]

/-! ## Lines -/

/-- A chunk without its newline. -/
def text (c : List UInt8) : List UInt8 := c.takeWhile (· ≠ 10)

/-- The texts of the chunks that have one. -/
def texts (n : Nat) [NeZero n] (s : List UInt8) : List (List UInt8) :=
  ((chunks n s).map text).filter (· ≠ [])

/-- The non-empty lines of a stream, without newlines. -/
def lines (s : List UInt8) : List (List UInt8) := (s.splitOn 10).filter (· ≠ [])

theorem texts_of_ne_nil {s : List UInt8} (h : s ≠ []) :
    texts n s = [text (chunk n s)].filter (· ≠ []) ++ texts n (s.drop (chunk n s).length) := by
  rw [texts, chunks_of_ne_nil h, List.map_cons, ← List.singleton_append, List.filter_append]
  rfl

theorem text_of_notMem {l : List UInt8} (hl : 10 ∉ l) : text l = l := by
  refine List.takeWhile_eq_self_iff.mpr fun c hc => ?_
  rw [decide_eq_true_eq]
  rintro rfl
  exact hl hc

theorem text_newline {l : List UInt8} (hl : 10 ∉ l) : text (l ++ [10]) = l := by
  have hself := text_of_notMem hl
  rw [text] at hself ⊢
  rw [List.takeWhile_append_of_pos (List.takeWhile_eq_self_iff.mp hself)]
  simp

theorem texts_cons {c rest : List UInt8} (hc : c ≠ []) (h : chunk n (c ++ rest) = c) :
    texts n (c ++ rest) = [text c].filter (· ≠ []) ++ texts n rest := by
  rw [texts_of_ne_nil (by simp [hc]), h, List.drop_left]

theorem splitOn_newline {l : List UInt8} (hl : 10 ∉ l) (rest : List UInt8) :
    (l ++ 10 :: rest).splitOn 10 = l :: rest.splitOn 10 := by
  rw [List.splitOn_append_cons_self, List.splitOn_eq_singleton hl]
  rfl

/-- A text without newlines extends the first line of what follows. -/
theorem splitOn_append {c : List UInt8} (hc : 10 ∉ c) (rest : List UInt8) :
    (c ++ rest).splitOn 10 = (rest.splitOn 10).modifyHead (c ++ ·) := by
  induction c with
  | nil =>
    rw [List.nil_append]
    cases rest.splitOn 10 with
    | nil => rfl
    | cons l ls => rfl
  | cons b c ih =>
    simp only [List.mem_cons, not_or] at hc
    rw [List.cons_append, List.splitOn_cons_eq_if_modifyHead, if_neg (by simpa using Ne.symm hc.1),
      ih hc.2, List.modifyHead_modifyHead]
    rfl

/-- A newline is in reach, or the chunk ends where the buffer or the stream does. -/
theorem newline_or_notMem (n : Nat) (s : List UInt8) :
    (∃ l rest, 10 ∉ l ∧ l.length < n ∧ s = l ++ 10 :: rest) ∨ 10 ∉ s.take n := by
  by_cases h : 10 ∈ s.take n
  · obtain ⟨l, rest, hl, hs⟩ := List.eq_append_cons_of_mem h
    refine Or.inl ⟨l, rest ++ s.drop n, hs, ?_, ?_⟩
    · have hlen := congrArg List.length hl
      simp only [List.length_take, List.length_append, List.length_cons] at hlen
      omega
    · rw [← List.cons_append, ← List.append_assoc, ← hl, List.take_append_drop]
  · exact Or.inr h

/-- A chunk is its text, with a newline or without. -/
theorem chunk_eq_text (n : Nat) (s : List UInt8) :
    10 ∉ text (chunk n s) ∧
      (chunk n s = text (chunk n s) ∨ chunk n s = text (chunk n s) ++ [10]) := by
  rcases newline_or_notMem n s with ⟨l, rest, hl, hn, rfl⟩ | hno
  · rw [chunk_of_newline hl hn, text_newline hl]
    exact ⟨hl, Or.inr rfl⟩
  · rw [chunk_of_notMem hno, text_of_notMem hno]
    exact ⟨hno, Or.inl rfl⟩

theorem lines_newline {l : List UInt8} (hl : 10 ∉ l) (rest : List UInt8) :
    lines (l ++ 10 :: rest) = [l].filter (· ≠ []) ++ lines rest := by
  rw [lines, splitOn_newline hl, ← List.singleton_append, List.filter_append]
  rfl

theorem texts_newline {l : List UInt8} (hl : 10 ∉ l) (hn : l.length < n)
    (rest : List UInt8) :
    texts n (l ++ 10 :: rest) = [l].filter (· ≠ []) ++ texts n rest := by
  have hc := chunk_of_newline hl hn rest
  rw [List.append_cons] at hc ⊢
  rw [texts_cons (by simp) hc, text_newline hl]

/-- A chunk that is cut off is a line only if a newline follows at once. -/
theorem texts_eq_lines_cut {c rest : List UInt8} (hc : c ≠ []) (hl : 10 ∉ c)
    (hcut : chunk n (c ++ rest) = c) (hlen : c.length ≤ n)
    (hfull : rest ≠ [] → c.length = n)
    (ih : texts n rest = lines rest ↔ ∀ l ∈ rest.splitOn 10, l.length ≤ n) :
    texts n (c ++ rest) = lines (c ++ rest) ↔ ∀ l ∈ (c ++ rest).splitOn 10, l.length ≤ n := by
  obtain ⟨l, ls, hsplit⟩ := List.exists_cons_of_ne_nil (List.splitOn_ne_nil 10 rest)
  have htexts : texts n (c ++ rest) = c :: texts n rest := by
    rw [texts_cons hc hcut, text_of_notMem hl]
    simp [hc]
  have hsplit' : (c ++ rest).splitOn 10 = (c ++ l) :: ls := by
    rw [splitOn_append hl, hsplit]
    rfl
  have hlines : lines (c ++ rest) = (c ++ l) :: ls.filter (· ≠ []) := by
    rw [lines, hsplit']
    simp [hc]
  rw [htexts, hlines, hsplit', List.cons.injEq, List.forall_mem_cons]
  by_cases hnil : l = []
  · subst hnil
    have hrest : lines rest = ls.filter (· ≠ []) := by
      rw [lines, hsplit]
      simp
    rw [hrest, hsplit, List.forall_mem_cons] at ih
    rw [List.append_nil, ih]
    simp [hlen]
  · have hne : rest ≠ [] := by
      rintro rfl
      rw [List.splitOn_nil, List.cons.injEq] at hsplit
      exact hnil hsplit.1.symm
    have hpos := List.length_pos_iff.mpr hnil
    have hself : c ≠ c ++ l := by simpa [eq_comm] using hnil
    have hlong : ¬(c ++ l).length ≤ n := by
      rw [List.length_append, hfull hne]
      omega
    exact iff_of_false (fun h => hself h.1) fun h => hlong h.1

/-- **Chunks and lines.** By induction on the chunks, each of which is a line with
its newline or is cut off. -/
theorem texts_eq_lines_iff (n : Nat) [NeZero n] (s : List UInt8) :
    texts n s = lines s ↔ ∀ l ∈ s.splitOn 10, l.length ≤ n := by
  induction s using chunks.induct n with
  | case1 => simp [texts, lines]
  | case2 s hs ih =>
    rcases newline_or_notMem n s with ⟨l, rest, hl, hn, rfl⟩ | hno
    · have hdrop : (l ++ 10 :: rest).drop (l ++ [10]).length = rest := by
        simp [List.drop_append]
      rw [chunk_of_newline hl hn, hdrop] at ih
      rw [texts_newline hl hn, lines_newline hl, splitOn_newline hl, List.append_cancel_left_eq,
        List.forall_mem_cons, ih]
      exact (and_iff_right (by omega)).symm
    · have hc := chunk_of_notMem hno
      rw [← chunk_append_drop n s]
      refine texts_eq_lines_cut (chunk_ne_nil hs) (hc ▸ hno) ?_ (length_chunk_le _ _) ?_ ih
      · rw [chunk_append_drop]
      · intro hrest
        have hpos := List.length_pos_iff.mpr hrest
        rw [hc] at hpos ⊢
        simp only [List.length_drop, List.length_take] at hpos ⊢
        omega

end Stdio
