import LearnFramework.HexText.Bounds
import LearnFramework.HexText.RoundTrip

/-!
# From a text of digits through `hex_to_bin` and back

On a text of digits alone, two for each byte, `hex_to_bin` is the plain decoder. What
`hex_convert_memory` writes of the bytes is the text in lower case, cut in rows of `width`
bytes with a blank behind each row but the last. So the other way around nothing is lost,
and the text comes back as it was, in lower case, when it fits in one row.
-/

namespace LearnFramework.HexText

open Hex

variable {width : Nat}

/-! ## The rows of the encoder -/

/-- A row ends with its blank. -/
theorem convertFrom_row {n i : Nat} {row rest : List UInt8} (hrow : i % width + row.length = width)
    (hne : row ≠ []) (hrest : rest ≠ []) (hn : i + row.length + rest.length = n) :
    convertFrom n width i (row ++ rest) =
      encode row ++ 32 :: convertFrom n width (i + row.length) rest := by
  have hpos := List.length_pos_iff.mpr hrest
  induction row generalizing i with
  | nil => exact absurd rfl hne
  | cons c row ih =>
    rw [List.length_cons] at hrow hn
    by_cases hlast : row = []
    · subst hlast
      rw [List.length_nil] at hrow hn
      have hend : i % width = width - 1 ∧ i ≠ n - 1 := by omega
      simp [convertFrom, encode, hend]
    · have hlen := List.length_pos_iff.mpr hlast
      have hin : ¬(i % width = width - 1 ∧ i ≠ n - 1) := by omega
      have hmod : (i + 1) % width = i % width + 1 := by
        rw [succ_mod (by omega), if_neg (by omega)]
      rw [List.cons_append, convertFrom, if_neg hin, ih (by omega) hlast (by omega), encode_cons]
      simp [Nat.add_comm, Nat.add_left_comm]

/-- The last row has none. -/
theorem convertFrom_last {n i : Nat} {last : List UInt8} (hlast : i % width + last.length ≤ width)
    (hn : i + last.length = n) : convertFrom n width i last = encode last := by
  induction last generalizing i with
  | nil => rfl
  | cons c last ih =>
    rw [List.length_cons] at hlast hn
    by_cases hend : last = []
    · subst hend
      rw [List.length_nil] at hn
      have hno : ¬(i % width = width - 1 ∧ i ≠ n - 1) := by omega
      simp [convertFrom, encode, hno]
    · have hlen := List.length_pos_iff.mpr hend
      have hno : ¬(i % width = width - 1 ∧ i ≠ n - 1) := by omega
      have hmod : (i + 1) % width = i % width + 1 := by
        rw [succ_mod (by omega), if_neg (by omega)]
      rw [convertFrom, if_neg hno, ih (by omega) (by omega), encode_cons]
      rfl

/-- **What the encoder writes**, by induction on the rows. -/
theorem convertFrom_rows {n i : Nat} {rows : List (List UInt8)} {last : List UInt8}
    (hwidth : 1 ≤ width) (hi : i % width = 0) (hrows : ∀ r ∈ rows, r.length = width)
    (hlast : 1 ≤ last.length ∧ last.length ≤ width) (hn : i + (rows.flatten ++ last).length = n) :
    convertFrom n width i (rows.flatten ++ last) =
      (rows.flatMap fun r => encode r ++ [32]) ++ encode last := by
  induction rows generalizing i with
  | nil =>
    rw [List.flatten_nil, List.nil_append] at hn ⊢
    exact convertFrom_last (by omega) hn
  | cons r rows ih =>
    rw [List.forall_mem_cons] at hrows
    obtain ⟨hr, hrows⟩ := hrows
    have hne : r ≠ [] := List.ne_nil_of_length_pos (by omega)
    have hrest : rows.flatten ++ last ≠ [] :=
      List.append_ne_nil_of_right_ne_nil _ (List.ne_nil_of_length_pos hlast.1)
    rw [List.flatten_cons, List.append_assoc] at hn ⊢
    rw [List.length_append] at hn
    have hnext : (i + r.length) % width = 0 := by rw [hr, Nat.add_mod_right, hi]
    rw [convertFrom_row (by omega) hne hrest (by omega), ih hnext hrows (by omega)]
    simp

/-! ## Pairs of digits -/

theorem convert_pair {c d : UInt8} {a b : Nat} (hc : digit c = some a) (hd : digit d = some b)
    (s : List UInt8) : convert (c :: d :: s) = some (UInt8.ofNat (a * 16 + b)) := by
  have hc' : isDigit c = true := by rw [isDigit, hc, Option.isSome_some]
  have hd' : isDigit d = true := by rw [isDigit, hd, Option.isSome_some]
  rw [convert_of_isDigit hc']
  simp [number, hc', hd', value, hc, hd]

theorem exists_pair {n : Nat} {text : List UInt8} (hhex : ∀ c ∈ text, isDigit c = true)
    (hlen : text.length = 2 * (n + 1)) :
    ∃ c d a b s, text = c :: d :: s ∧ digit c = some a ∧ digit d = some b ∧
      (∀ x ∈ s, isDigit x = true) ∧ s.length = 2 * n := by
  match text, hlen with
  | c :: d :: s, hlen =>
    obtain ⟨a, ha⟩ := Option.isSome_iff_exists.mp (hhex c (by simp))
    obtain ⟨b, hb⟩ := Option.isSome_iff_exists.mp (hhex d (by simp))
    refine ⟨c, d, a, b, s, rfl, ha, hb, fun x hx => hhex x (by simp [hx]), ?_⟩
    simp only [List.length_cons] at hlen
    omega

/-- `sscanf` at an even place reads the byte of the decoder. -/
theorem convert_text {n : Nat} {text : List UInt8} (hhex : ∀ c ∈ text, isDigit c = true)
    (hlen : text.length = 2 * n) {k : Nat} (hk : k < n) :
    convert (text.drop (2 * k)) = (decode text)[k]? := by
  obtain ⟨n, rfl⟩ : ∃ m, n = m + 1 := ⟨n - 1, by omega⟩
  induction k generalizing n text with
  | zero =>
    obtain ⟨c, d, a, b, s, rfl, ha, hb, -⟩ := exists_pair hhex hlen
    rw [decode_cons ha hb, List.getElem?_cons_zero]
    exact convert_pair ha hb s
  | succ k ih =>
    obtain ⟨c, d, a, b, s, rfl, ha, hb, hs, hlen'⟩ := exists_pair hhex hlen
    obtain ⟨n, rfl⟩ : ∃ m, n = m + 1 := ⟨n - 1, by omega⟩
    have hdrop : (c :: d :: s).drop (2 * (k + 1)) = s.drop (2 * k) := rfl
    rw [decode_cons ha hb, List.getElem?_cons_succ, hdrop]
    exact ih hs n hlen' (by omega)

theorem length_decode_text {n : Nat} {text : List UInt8} (hhex : ∀ c ∈ text, isDigit c = true)
    (hlen : text.length = 2 * n) : (decode text).length = n := by
  rw [decode_length, length_filterMap_digit hhex, hlen, Nat.mul_div_cancel_left n (by decide)]

theorem notMem_zero {text : List UInt8} (hhex : ∀ c ∈ text, isDigit c = true) : 0 ∉ text := by
  intro h0
  cases hhex 0 h0

/-- The decoder on a text of digits. -/
theorem hexToBin_text {n : Nat} {text : List UInt8} (hhex : ∀ c ∈ text, isDigit c = true)
    (hlen : text.length = 2 * n) (behind : List UInt8) {dest : List UInt8}
    (hdest : n ≤ dest.length) :
    ∃ s, hexToBin (text ++ 0 :: behind) dest n = some s ∧ s.dest = decode text ++ dest.drop n ∧
      Inside text n s := by
  have hnul := notMem_zero hhex
  have hbytes := length_decode_text hhex hlen
  have hread : ∀ k < 0 + n, convert (text.drop (2 * k)) = some ((decode text).getD k 0) := by
    intro k hk
    rw [Nat.zero_add] at hk
    rw [convert_text hhex hlen hk, List.getD_eq_getElem?_getD,
      List.getElem?_eq_getElem (by omega), Option.getD_some]
  obtain ⟨s, hrun, hs⟩ := loop_dest behind hnul n (s := ⟨0, 0, dest, [], []⟩) rfl
    (by simp [hlen]) hread
  simp only [Nat.zero_le, true_and, Nat.zero_add] at hs
  have hstart : Inside text 0 ⟨0, 0, dest, [], []⟩ := ⟨by simp, by simp, Nat.le_refl 0⟩
  have heven : (text.length - 0) % 2 = 0 := by omega
  obtain ⟨s', hrun', hinside⟩ := loop_inside (s := ⟨0, 0, dest, [], []⟩) hnul n hstart
    (Nat.zero_le _) (Or.inl heven)
  obtain rfl : s = s' := Option.some.inj (hrun.symm.trans hrun')
  refine ⟨s, hrun, List.ext_getElem? fun j => ?_, by simpa using hinside⟩
  rw [hs j]
  by_cases hj : j < n
  · rw [if_pos hj, List.getElem?_append_left (by omega),
      List.getElem?_eq_getElem (by omega), List.getD_eq_getElem?_getD,
      List.getElem?_eq_getElem (by omega)]
    rfl
  · rw [if_neg hj, List.getElem?_append_right (by omega), List.getElem?_drop]
    congr 1
    omega

/-! ## There and back -/

theorem length_rows {k : Nat} {rows : List (List UInt8)} (h : ∀ r ∈ rows, r.length = k) :
    rows.flatten.length = rows.length * k := by
  have hmap : rows.map List.length = List.replicate rows.length k := by
    rw [List.map_congr_left h, List.map_const']
  rw [List.length_flatten, hmap, List.sum_replicate_nat]

/-- Rows of whole bytes are decoded one by one. -/
theorem decode_rows {rows : List (List UInt8)} (hhex : ∀ r ∈ rows, ∀ c ∈ r, isDigit c = true)
    (hrows : ∀ r ∈ rows, r.length = 2 * width) (last : List UInt8) :
    decode (rows.flatten ++ last) = (rows.map decode).flatten ++ decode last := by
  induction rows with
  | nil => rfl
  | cons r rows ih =>
    rw [List.forall_mem_cons] at hhex hrows
    have heven : (r.filterMap digit).length % 2 = 0 := by
      rw [length_filterMap_digit hhex.1, hrows.1, Nat.mul_mod_right]
    rw [List.flatten_cons, List.append_assoc, decode_append heven, ih hhex.2 hrows.2,
      List.map_cons, List.flatten_cons, List.append_assoc]

/-- **From a text of digits to bytes and back.** `hex_to_bin` stores what the decoder makes
of the text, whatever is behind the text and in the buffer, and reads no further than the
NUL. What the encoder writes of these bytes is the text in lower case, cut in rows of
`width` bytes. -/
theorem text_round_trip (hwidth : 1 ≤ width) {n : Nat} {text : List UInt8}
    (hhex : ∀ c ∈ text, isDigit c = true) (hlen : text.length = 2 * n)
    (behind dest : List UInt8) (hdest : n ≤ dest.length) :
    ∃ s, hexToBin (text ++ 0 :: behind) dest n = some s ∧
      s.dest = decode text ++ dest.drop n ∧ Inside text n s ∧
      ∀ (rows : List (List UInt8)) (last : List UInt8), text = rows.flatten ++ last →
        (∀ r ∈ rows, r.length = 2 * width) → 1 ≤ last.length ∧ last.length ≤ 2 * width →
          hexConvertMemory (decode text) width =
            (rows.flatMap fun r => r.map lower ++ [32]) ++ last.map lower := by
  obtain ⟨s, hrun, hs, hinside⟩ := hexToBin_text hhex hlen behind hdest
  refine ⟨s, hrun, hs, hinside, fun rows last htext hrows hlast => ?_⟩
  subst htext
  have hhexRows : ∀ r ∈ rows, ∀ c ∈ r, isDigit c = true := fun r hr c hc =>
    hhex c (List.mem_append_left _ (List.mem_flatten.mpr ⟨r, hr, hc⟩))
  have hhexLast : ∀ c ∈ last, isDigit c = true := fun c hc =>
    hhex c (List.mem_append_right _ hc)
  obtain ⟨m, hm⟩ : ∃ m, last.length = 2 * m := by
    have hrest := length_rows hrows
    rw [Nat.mul_left_comm] at hrest
    rw [List.length_append, hrest] at hlen
    exact ⟨n - rows.length * width, by omega⟩
  have hbytes := length_decode_text hhexLast hm
  have hrows' : ∀ r ∈ rows.map decode, r.length = width := by
    intro r hr
    obtain ⟨r', hr', rfl⟩ := List.mem_map.mp hr
    exact length_decode_text (hhexRows r' hr') (hrows r' hr')
  rw [decode_rows hhexRows hrows, hexConvertMemory,
    convertFrom_rows hwidth (Nat.zero_mod width) hrows' (by omega) (Nat.zero_add _),
    encode_decode hhexLast hm, List.flatMap_map]
  congr 1
  refine List.flatMap_congr fun r hr => ?_
  rw [encode_decode (hhexRows r hr) (hrows r hr)]

/-- Two bytes in one row each; the text has an upper-case digit. -/
theorem text_round_trip_two_rows :
    ∃ s, hexToBin ([48, 65, 98, 99] ++ 0 :: []) [7, 7, 7] 2 = some s ∧
      s.dest = [10, 188, 7] ∧ hexConvertMemory [10, 188] 1 = [48, 97, 32, 98, 99] := by
  obtain ⟨s, hrun, hs, -, hback⟩ := text_round_trip (Nat.le_refl 1) (n := 2)
    (show ∀ c ∈ [48, 65, 98, 99], isDigit c = true by simp [isDigit, digit]) rfl [] [7, 7, 7] (by decide)
  exact ⟨s, hrun, hs, hback [[48, 65]] [98, 99] rfl (by simp) (by decide)⟩

end LearnFramework.HexText
