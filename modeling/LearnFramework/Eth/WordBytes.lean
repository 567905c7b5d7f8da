import LearnFramework.Eth.PutDecodedDatum

/-!
# How much a word section can deliver

A word of few digits fills its high bytes with 0, or with 255 when it has a minus
sign. Other bytes take a digit of the text each, and the keyword takes six more
characters, so a section that delivers its own text is impossible
(`plainCount_wordSection`).
-/

namespace LearnFramework.Eth

open Bytes

/-- The number of characters other than those that fill a word. -/
def plainCount (s : List UInt8) : Nat := s.countP fun c => c ≠ 0 && c ≠ 255

theorem plainCount_append (s t : List UInt8) :
    plainCount (s ++ t) = plainCount s + plainCount t := List.countP_append

theorem plainCount_cons_le (c : UInt8) (s : List UInt8) :
    plainCount (c :: s) ≤ plainCount s + 1 := by
  rw [plainCount, List.countP_cons]
  split_ifs
  · rfl
  · exact Nat.le_succ _

theorem plainCount_le_of_suffix {s t : List UInt8} (h : s <:+ t) : plainCount s ≤ plainCount t :=
  h.sublist.countP_le

/-! ## The bytes of a word -/

theorem littleEndian_succ (size v : Nat) :
    littleEndian (size + 1) v = UInt8.ofNat v :: littleEndian size (v / 256) := by
  simp [littleEndian, toBE]

theorem plainCount_fill {size v d : Nat} (h0 : d = 0 → UInt8.ofNat v = 0 ∨ UInt8.ofNat v = 255)
    (h : plainCount (littleEndian size (v / 256)) ≤ d - 1) :
    plainCount (littleEndian (size + 1) v) ≤ d := by
  rw [littleEndian_succ]
  cases d with
  | zero =>
    rw [plainCount, List.countP_cons_of_neg]
    · exact h
    · rcases h0 rfl with h0 | h0
      · simp [h0]
      · simp [h0]
  | succ d =>
    have hle := plainCount_cons_le (UInt8.ofNat v) (littleEndian size (v / 256))
    omega

theorem plainCount_littleEndian {size v d : Nat} (h : v < 16 ^ d) :
    plainCount (littleEndian size v) ≤ d := by
  induction size generalizing v d with
  | zero => exact Nat.zero_le d
  | succ size ih =>
    refine plainCount_fill (fun hd => ?_) (ih ?_)
    · subst hd
      left
      rw [show v = 0 by simpa using h]
      rfl
    · cases d with
      | zero =>
        rw [pow_zero] at h
        rw [Nat.zero_sub, pow_zero]
        omega
      | succ d =>
        rw [pow_succ] at h
        rw [Nat.add_sub_cancel]
        omega

/-- Below zero the high bytes are 255. -/
theorem plainCount_littleEndian_neg {size n d : Nat} (hpos : 0 < n) (hle : n ≤ 256 ^ size)
    (h : n ≤ 16 ^ d) : plainCount (littleEndian size (256 ^ size - n)) ≤ d := by
  induction size generalizing n d with
  | zero => exact Nat.zero_le d
  | succ size ih =>
    rw [pow_succ] at hle ⊢
    have hdiv : (256 ^ size * 256 - n) / 256 = 256 ^ size - (n + 255) / 256 := by omega
    refine plainCount_fill (fun hd => ?_) ?_
    · right
      subst hd
      obtain rfl : n = 1 := by
        rw [pow_zero] at h
        omega
      rw [← UInt8.toNat_inj, UInt8.toNat_ofNat']
      have hK : 0 < 256 ^ size := Nat.pow_pos (by decide)
      change (256 ^ size * 256 - 1) % 256 = 255
      omega
    · rw [hdiv]
      refine ih (by omega) (by omega) ?_
      cases d with
      | zero =>
        rw [pow_zero] at h
        rw [Nat.zero_sub, pow_zero]
        omega
      | succ d =>
        have hK : 0 < 16 ^ d := Nat.pow_pos (by decide)
        rw [pow_succ] at h
        rw [Nat.add_sub_cancel]
        omega

/-! ## The words of a section -/

theorem takeSign_suffix (s : List UInt8) : (takeSign s).2 <:+ s := by
  unfold takeSign
  split
  · exact List.suffix_cons _ _
  · exact List.suffix_cons _ _
  · exact List.suffix_refl _

theorem takeBasePrefix_suffix (s : List UInt8) : (takeBasePrefix s).2 <:+ s := by
  unfold takeBasePrefix
  split
  · exact (List.suffix_cons _ _).trans (List.suffix_cons _ _)
  · exact (List.suffix_cons _ _).trans (List.suffix_cons _ _)
  · exact List.suffix_cons _ _
  · exact List.suffix_refl _

theorem plainCount_digits {s : List UInt8} (h : ∀ c ∈ s, Hex.isDigit c = true) :
    plainCount s = s.length := by
  refine List.countP_eq_length.mpr fun c hc => ?_
  have h0 : c ≠ 0 := ne_of_kind (h c hc) rfl
  have h255 : c ≠ 255 := ne_of_kind (h c hc) rfl
  simp [h0, h255]

/-- **One word** takes as many plain characters off the text as it delivers. -/
theorem plainCount_extractHex {size v : Nat} {s rest : List UInt8}
    (h : extractHex (8 * size) s = some (v, rest)) :
    plainCount (littleEndian size v) + plainCount rest ≤ plainCount s := by
  have hsign := takeSign_suffix (s.dropWhile isSpace)
  have hbase := takeBasePrefix_suffix (takeSign (s.dropWhile isSpace)).2
  have hskip := List.dropWhile_suffix (l := s) isSpace
  simp only [extractHex] at h
  generalize takeSign (s.dropWhile isSpace) = p at h hsign hbase
  obtain ⟨negative, s₁⟩ := p
  simp only at h hsign hbase
  generalize takeBasePrefix s₁ = p at h hbase
  obtain ⟨zero, s₂⟩ := p
  simp only at h hbase
  by_cases hnone : s₂.takeWhile Hex.isDigit = [] ∧ zero = false
  · rw [if_pos hnone] at h
    cases h
  by_cases hbig : 2 ^ (8 * size) ≤ Hex.value (s₂.takeWhile Hex.isDigit)
  · rw [if_neg hnone, if_pos hbig] at h
    cases h
  rw [if_neg hnone, if_neg hbig, Option.some.injEq, Prod.mk.injEq] at h
  obtain ⟨hv, rfl⟩ := h
  have hsuffix := plainCount_le_of_suffix (hbase.trans (hsign.trans hskip))
  have hdigits : ∀ c ∈ s₂.takeWhile Hex.isDigit, Hex.isDigit c = true :=
    fun c hc => List.mem_takeWhile_imp hc
  have hsplit : plainCount s₂ =
      (s₂.takeWhile Hex.isDigit).length + plainCount (s₂.dropWhile Hex.isDigit) := by
    rw [← plainCount_digits hdigits, ← plainCount_append, List.takeWhile_append_dropWhile]
  have hlt := Hex.value_lt (s₂.takeWhile Hex.isDigit)
  have hpow : 2 ^ (8 * size) = 256 ^ size := pow_mul 2 8 size
  rw [hpow] at hv hbig
  have hword : plainCount (littleEndian size v) ≤ (s₂.takeWhile Hex.isDigit).length := by
    generalize Hex.value (s₂.takeWhile Hex.isDigit) = n at *
    cases negative with
    | false =>
      subst hv
      exact plainCount_littleEndian hlt
    | true =>
      rcases Nat.eq_zero_or_pos n with rfl | hpos
      · have hzero : v = 0 := by simpa using hv.symm
        subst hzero
        exact plainCount_littleEndian hlt
      · rw [if_pos rfl, Nat.mod_eq_of_lt (by omega)] at hv
        subst hv
        exact plainCount_littleEndian_neg hpos (by omega) hlt.le
  omega

/-- By induction on the words. -/
theorem plainCount_extractAll (size : Nat) (s : List UInt8) :
    plainCount ((extractAll (8 * size) s).flatMap (littleEndian size)) ≤ plainCount s := by
  suffices h : ∀ n s, plainCount ((extractAll.go (8 * size) n s).flatMap (littleEndian size)) ≤
      plainCount s from h _ s
  intro n
  induction n with
  | zero => exact fun s => Nat.zero_le _
  | succ n ih =>
    intro s
    rw [extractAll.go]
    cases hword : extractHex (8 * size) s with
    | none => exact Nat.zero_le _
    | some p =>
      have hle := plainCount_extractHex hword
      have hrest := ih p.2
      simp only [List.flatMap_cons, plainCount_append]
      omega

/-- **A section delivers fewer plain characters than its text has.** -/
theorem plainCount_wordSection {s : List UInt8} (h : s.take 6 = word32 ∨ s.take 6 = word64) :
    plainCount (wordSection s) < plainCount s := by
  have hkeyword : plainCount (s.take 6) = 6 := by
    rcases h with h | h
    · rw [h]
      rfl
    · rw [h]
      rfl
  have hsplit : plainCount s = 6 + plainCount (s.drop 6) := by
    have happend := plainCount_append (s.take 6) (s.drop 6)
    rwa [List.take_append_drop, hkeyword] at happend
  have h64 : plainCount ((extractAll 64 (s.drop 6)).flatMap (littleEndian 8)) ≤
      plainCount (s.drop 6) := plainCount_extractAll 8 _
  have h32 : plainCount ((extractAll 32 (s.drop 6)).flatMap (littleEndian 4)) ≤
      plainCount (s.drop 6) := plainCount_extractAll 4 _
  rw [wordSection]
  split_ifs
  · omega
  · omega

end LearnFramework.Eth
