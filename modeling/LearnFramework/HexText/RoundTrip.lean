import LearnFramework.HexText.Codec

/-!
# From `hex_convert_memory` back through `hex_to_bin`

The encoder puts a blank behind every `width` bytes. `sscanf` skips it, but `ph` goes on
by two characters as if it were not there, so that behind every blank the decoder is one
digit further behind. What it stores is the digits at the place where it then stands.
-/

namespace LearnFramework.HexText

open Hex

/-! ## Places in the text -/

/-- The number of digits in front of a place; every `width` bytes and their blank take
`2 * width + 1` places. -/
def digitsBefore (width p : Nat) : Nat := p - p / (2 * width + 1)

/-- Whether a blank stands there. -/
def IsGap (width p : Nat) : Prop := p % (2 * width + 1) = 2 * width

instance (width p : Nat) : Decidable (IsGap width p) :=
  inferInstanceAs (Decidable (p % (2 * width + 1) = 2 * width))

variable {width p : Nat}

theorem succ_mod {b : Nat} (hb : 1 ≤ b) (a : Nat) :
    (a + 1) % b = if a % b = b - 1 then 0 else a % b + 1 := by
  have hlt := Nat.mod_lt a hb
  rw [← Nat.mod_add_mod]
  split
  case isTrue hlast =>
    have hfull : a % b + 1 = b := by omega
    rw [hfull, Nat.mod_self]
  case isFalse hlast => exact Nat.mod_eq_of_lt (by omega)

theorem place_succ_mod (width p : Nat) :
    (p + 1) % (2 * width + 1) = if IsGap width p then 0 else p % (2 * width + 1) + 1 :=
  succ_mod (by omega) p

theorem digitsBefore_succ (width p : Nat) :
    digitsBefore width (p + 1) = digitsBefore width p + if IsGap width p then 0 else 1 := by
  have hle := Nat.div_le_self p (2 * width + 1)
  have hdvd : 2 * width + 1 ∣ p + 1 ↔ IsGap width p := by
    rw [Nat.dvd_iff_mod_eq_zero, place_succ_mod]
    by_cases hgap : IsGap width p
    · simp [hgap]
    · simp [hgap]
  unfold digitsBefore
  rw [Nat.succ_div]
  simp only [hdvd]
  split
  · omega
  · omega

theorem digitsBefore_mono (width p q : Nat) :
    digitsBefore width p ≤ digitsBefore width (p + q) := by
  induction q with
  | zero => exact Nat.le_refl _
  | succ q ih =>
    rw [← Nat.add_assoc, digitsBefore_succ]
    omega

/-- Behind a blank a row starts, with at least two digits. -/
theorem IsGap.row_succ (h : IsGap width p) : (p + 1) % (2 * width + 1) = 0 := by
  rw [place_succ_mod, if_pos h]

theorem IsGap.not_succ (h : IsGap width p) (hwidth : 1 ≤ width) : ¬ IsGap width (p + 1) := by
  have hrow := h.row_succ
  unfold IsGap
  omega

theorem IsGap.not_two (h : IsGap width p) (hwidth : 1 ≤ width) : ¬ IsGap width (p + 2) := by
  have hrow : (p + 2) % (2 * width + 1) = 1 := by
    rw [place_succ_mod, if_neg (h.not_succ hwidth), h.row_succ]
  unfold IsGap
  omega

/-- The character at a place, where the next digit is `d`. -/
def character (width p d : Nat) : UInt8 := if IsGap width p then 32 else nibble d

/-- The digits of byte `i` start at `p`. -/
structure StartsAt (width i p : Nat) : Prop where
  row : p % (2 * width + 1) = 2 * (i % width)
  before : digitsBefore width p = 2 * i

namespace StartsAt

variable {i : Nat}

theorem zero (width : Nat) : StartsAt width 0 0 := by
  constructor
  case row => rw [Nat.zero_mod, Nat.zero_mod]
  case before => rw [digitsBefore, Nat.zero_div]

theorem not_gap (h : StartsAt width i p) (hwidth : 1 ≤ width) : ¬ IsGap width p := by
  have hlt := Nat.mod_lt i hwidth
  have hrow := h.row
  unfold IsGap
  omega

theorem row_succ (h : StartsAt width i p) (hwidth : 1 ≤ width) :
    (p + 1) % (2 * width + 1) = 2 * (i % width) + 1 := by
  rw [place_succ_mod, if_neg (h.not_gap hwidth), h.row]

theorem not_gap_succ (h : StartsAt width i p) (hwidth : 1 ≤ width) :
    ¬ IsGap width (p + 1) := by
  have hrow := h.row_succ hwidth
  unfold IsGap
  omega

theorem row_two (h : StartsAt width i p) (hwidth : 1 ≤ width) :
    (p + 2) % (2 * width + 1) = 2 * (i % width) + 2 := by
  rw [place_succ_mod, if_neg (h.not_gap_succ hwidth), h.row_succ hwidth]

theorem before_succ (h : StartsAt width i p) (hwidth : 1 ≤ width) :
    digitsBefore width (p + 1) = 2 * i + 1 := by
  rw [digitsBefore_succ, if_neg (h.not_gap hwidth), h.before]

theorem before_two (h : StartsAt width i p) (hwidth : 1 ≤ width) :
    digitsBefore width (p + 2) = 2 * (i + 1) := by
  rw [digitsBefore_succ, if_neg (h.not_gap_succ hwidth), h.before_succ hwidth]
  omega

/-- Inside of a row the next byte follows at once. -/
theorem next (h : StartsAt width i p) (hwidth : 1 ≤ width) (hrow : i % width ≠ width - 1) :
    StartsAt width (i + 1) (p + 2) := by
  constructor
  case row =>
    rw [h.row_two hwidth, succ_mod hwidth, if_neg hrow]
    omega
  case before => exact h.before_two hwidth

theorem gap (h : StartsAt width i p) (hwidth : 1 ≤ width) (hrow : i % width = width - 1) :
    IsGap width (p + 2) := by
  have htwo := h.row_two hwidth
  unfold IsGap
  omega

/-- Behind the last byte of a row it follows behind the blank. -/
theorem next_row (h : StartsAt width i p) (hwidth : 1 ≤ width)
    (hrow : i % width = width - 1) : StartsAt width (i + 1) (p + 3) := by
  have hgap := h.gap hwidth hrow
  constructor
  case row => rw [place_succ_mod, if_pos hgap, succ_mod hwidth, if_pos hrow]
  case before => rw [digitsBefore_succ, if_pos hgap, h.before_two hwidth, Nat.add_zero]

end StartsAt

/-! ## The text -/

theorem getElem?_convertFrom (hwidth : 1 ≤ width) {n i : Nat} {m : List UInt8}
    (hlen : i + m.length = n) (hstart : StartsAt width i p) (q : Nat) :
    (convertFrom n width i m)[q]? =
      ((digits m)[digitsBefore width (p + q) - 2 * i]?).map (character width (p + q)) := by
  induction m generalizing i p q with
  | nil => simp [convertFrom, digits]
  | cons c m ih =>
    have hlen' : i + 1 + m.length = n := by
      rw [← hlen, List.length_cons]
      omega
    rcases q with _ | _ | q
    · simp [convertFrom, hstart.before, character, hstart.not_gap hwidth]
    · simp [convertFrom, hstart.before_succ hwidth, character, hstart.not_gap_succ hwidth]
    · -- the two digits of `c` are left behind on both sides
      have htwo := hstart.before_two hwidth
      have hmono := digitsBefore_mono width (p + 2) q
      have hplace : p + (q + 2) = p + 2 + q := by omega
      have hdigit : digitsBefore width (p + 2 + q) - 2 * i =
          digitsBefore width (p + 2 + q) - 2 * (i + 1) + 2 := by omega
      rw [hplace, hdigit, digits_cons, List.getElem?_cons_succ, List.getElem?_cons_succ]
      by_cases hrow : i % width = width - 1
      · by_cases hend : i = n - 1
        · have hm : m = [] := List.eq_nil_of_length_eq_zero (by omega)
          simp [convertFrom, hend, hm, digits]
        · have htext : (convertFrom n width i (c :: m))[q + 2]? =
              (32 :: convertFrom n width (i + 1) m)[q]? := by
            simp [convertFrom, hrow, hend]
          rw [htext]
          cases q with
          | zero =>
            obtain ⟨b, rest, rfl⟩ := List.exists_cons_of_length_pos (l := m) (by omega)
            simp [htwo, character, hstart.gap hwidth hrow]
          | succ q =>
            have hplace' : p + 2 + (q + 1) = p + 3 + q := by omega
            rw [hplace', List.getElem?_cons_succ]
            exact ih hlen' (hstart.next_row hwidth hrow) q
      · have htext : (convertFrom n width i (c :: m))[q + 2]? =
            (convertFrom n width (i + 1) m)[q]? := by
          simp [convertFrom, hrow]
        rw [htext]
        exact ih hlen' (hstart.next hwidth hrow) q

theorem getElem?_hexConvertMemory (hwidth : 1 ≤ width) (m : List UInt8) (p : Nat) :
    (hexConvertMemory m width)[p]? =
      ((digits m)[digitsBefore width p]?).map (character width p) := by
  have htext := getElem?_convertFrom hwidth (Nat.zero_add m.length) (StartsAt.zero width) p
  simpa [hexConvertMemory] using htext

/-! ## What `sscanf` stores -/

theorem isDigit_nibble {d : Nat} (hd : d < 16) : isDigit (nibble d) = true := by
  rw [isDigit, digit_nibble hd, Option.isSome_some]

theorem not_isSpace_of_isDigit {c : UInt8} (hc : isDigit c = true) : isSpace c = false := by
  have hlow := le_toNat_of_isDigit hc
  have h32 : (32 : UInt8).toNat = 32 := rfl
  have h13 : (13 : UInt8).toNat = 13 := rfl
  simp only [isSpace, Bool.or_eq_false_iff, Bool.and_eq_false_iff, decide_eq_false_iff_not,
    UInt8.le_iff_toNat_le, ← UInt8.toNat_inj]
  omega

theorem convert_gap (s : List UInt8) : convert (32 :: s) = convert s := rfl

/-- In front of a digit there is nothing to skip and no sign. -/
theorem convert_of_isDigit {c : UInt8} (hc : isDigit c = true) (s : List UInt8) :
    convert (c :: s) = (number (c :: s.take 1)).map UInt8.ofNat := by
  have hdrop : (c :: s).dropWhile isSpace = c :: s := by
    simp [not_isSpace_of_isDigit hc]
  have hminus : c ≠ 45 := by
    rintro rfl
    cases hc
  have hplus : c ≠ 43 := by
    rintro rfl
    cases hc
  simp only [convert, hdrop, List.take_succ_cons]
  split
  case h_1 heq => exact absurd (List.head_eq_of_cons_eq heq) hminus
  case h_2 heq => exact absurd (List.head_eq_of_cons_eq heq) hplus
  case h_3 => rfl

theorem convert_digits {d e : Nat} (hd : d < 16) (he : e < 16) (s : List UInt8) :
    convert (nibble d :: nibble e :: s) = some (UInt8.ofNat (d * 16 + e)) := by
  rw [convert_of_isDigit (isDigit_nibble hd)]
  simp [number, isDigit_nibble hd, isDigit_nibble he, value, digit_nibble hd, digit_nibble he]

theorem convert_digit_gap {d : Nat} (hd : d < 16) (s : List UInt8) :
    convert (nibble d :: 32 :: s) = some (UInt8.ofNat d) := by
  have hgap : isDigit 32 = false := rfl
  rw [convert_of_isDigit (isDigit_nibble hd)]
  simp [number, isDigit_nibble hd, hgap, value, digit_nibble hd]

/-- What is stored at `k`, of the digits at the place where `ph` then stands. -/
def stored (m : List UInt8) (width k : Nat) : UInt8 :=
  let i := digitsBefore width (2 * k)
  let d := fun j => (digits m).getD j 0
  UInt8.ofNat (if IsGap width (2 * k + 1) then d i else d i * 16 + d (i + 1))

/-- The digits there are digits of the text. -/
theorem exists_digits {m : List UInt8} (width : Nat) {k : Nat} (hk : k < m.length) :
    ∃ d e, d < 16 ∧ e < 16 ∧ (digits m)[digitsBefore width (2 * k)]? = some d ∧
      (digits m)[digitsBefore width (2 * k) + 1]? = some e := by
  have hle : digitsBefore width (2 * k) ≤ 2 * k := Nat.sub_le _ _
  have hlen := length_digits m
  have hfirst : digitsBefore width (2 * k) < (digits m).length := by omega
  have hsecond : digitsBefore width (2 * k) + 1 < (digits m).length := by omega
  exact ⟨_, _, digits_lt _ (List.getElem_mem hfirst), digits_lt _ (List.getElem_mem hsecond),
    List.getElem?_eq_getElem hfirst, List.getElem?_eq_getElem hsecond⟩

theorem drop_eq_cons {t : List UInt8} {c : UInt8} (h : t[p]? = some c) :
    t.drop p = c :: t.drop (p + 1) := by
  rw [List.drop_eq_getElem?_toList_append, h]
  rfl

theorem convert_drop (hwidth : 1 ≤ width) {m : List UInt8} {k : Nat} (hk : k < m.length) :
    convert ((hexConvertMemory m width).drop (2 * k)) = some (stored m width k) := by
  obtain ⟨d, e, hd, he, hfirst, hsecond⟩ := exists_digits width hk
  have hat {p : Nat} := getElem?_hexConvertMemory (p := p) hwidth m
  by_cases hgap : IsGap width (2 * k)
  · have hgap₁ := hgap.not_succ hwidth
    have hgap₂ := hgap.not_two hwidth
    have hbefore : digitsBefore width (2 * k + 1) = digitsBefore width (2 * k) := by
      rw [digitsBefore_succ, if_pos hgap, Nat.add_zero]
    have hbefore' : digitsBefore width (2 * k + 2) = digitsBefore width (2 * k) + 1 := by
      rw [digitsBefore_succ, if_neg hgap₁, hbefore]
    have h₀ : (hexConvertMemory m width)[2 * k]? = some 32 := by
      simp [hat, hfirst, character, hgap]
    have h₁ : (hexConvertMemory m width)[2 * k + 1]? = some (nibble d) := by
      simp [hat, hbefore, hfirst, character, hgap₁]
    have h₂ : (hexConvertMemory m width)[2 * k + 2]? = some (nibble e) := by
      simp [hat, hbefore', hsecond, character, hgap₂]
    rw [drop_eq_cons h₀, drop_eq_cons h₁, drop_eq_cons h₂, convert_gap, convert_digits hd he]
    simp [stored, hgap₁, hfirst, hsecond]
  · have hbefore : digitsBefore width (2 * k + 1) = digitsBefore width (2 * k) + 1 := by
      rw [digitsBefore_succ, if_neg hgap]
    have h₀ : (hexConvertMemory m width)[2 * k]? = some (nibble d) := by
      simp [hat, hfirst, character, hgap]
    have h₁ : (hexConvertMemory m width)[2 * k + 1]? = some (character width (2 * k + 1) e) := by
      simp [hat, hbefore, hsecond]
    rw [drop_eq_cons h₀, drop_eq_cons h₁]
    by_cases hgap₁ : IsGap width (2 * k + 1)
    · rw [character, if_pos hgap₁, convert_digit_gap hd]
      simp [stored, hgap₁, hfirst]
    · rw [character, if_neg hgap₁, convert_digits hd he]
      simp [stored, hgap₁, hfirst, hsecond]

/-! ## The loop over the text -/

theorem hexConvertMemory_ne_zero (hwidth : 1 ≤ width) (m : List UInt8) :
    0 ∉ hexConvertMemory m width := by
  intro hmem
  obtain ⟨p, hp⟩ := List.mem_iff_getElem?.mp hmem
  rw [getElem?_hexConvertMemory hwidth] at hp
  obtain ⟨d, hd, hzero⟩ := Option.map_eq_some_iff.mp hp
  have hdigit := isDigit_nibble (digits_lt d (List.mem_of_getElem? hd))
  unfold character at hzero
  split at hzero
  · cases hzero
  · rw [hzero] at hdigit
    cases hdigit

theorem le_length_hexConvertMemory (hwidth : 1 ≤ width) (m : List UInt8) :
    2 * m.length ≤ (hexConvertMemory m width).length := by
  by_contra hshort
  have hle : digitsBefore width (hexConvertMemory m width).length ≤
      (hexConvertMemory m width).length := Nat.sub_le _ _
  have hend := getElem?_hexConvertMemory hwidth m (hexConvertMemory m width).length
  rw [List.getElem?_eq_none (Nat.le_refl _), eq_comm, Option.map_eq_none_iff,
    List.getElem?_eq_none_iff, length_digits] at hend
  omega

/-- Where `sscanf` finds a number at each turn, each byte with room is stored. -/
theorem loop_dest {hex : List UInt8} (behind : List UInt8) (hnul : 0 ∉ hex) {f : Nat → UInt8}
    (room : Nat) {s : HexToBin} (hph : s.ph = 2 * s.bin) (hlen : 2 * (s.bin + room) ≤ hex.length)
    (hread : ∀ k < s.bin + room, convert (hex.drop (2 * k)) = some (f k)) :
    ∃ s', HexToBin.loop (hex ++ 0 :: behind) room s = some s' ∧
      ∀ j, s'.dest[j]? = if s.bin ≤ j ∧ j < s.bin + room then (s.dest[j]?).map fun _ => f j
        else s.dest[j]? := by
  induction room generalizing s with
  | zero =>
    refine ⟨_, HexToBin.loop_stop hnul (by omega) (Or.inl rfl), fun j => ?_⟩
    rw [if_neg (by omega)]
  | succ room ih =>
    have hbin := HexToBin.next_bin hex s
    have hph' : (s.next hex).ph = 2 * (s.next hex).bin := by
      rw [HexToBin.next_ph, hbin, hph]
      omega
    have hread' : ∀ k < (s.next hex).bin + room, convert (hex.drop (2 * k)) = some (f k) :=
      fun k hk => hread k (by omega)
    obtain ⟨s', hloop, hs'⟩ := ih hph' (by omega) hread'
    refine ⟨s', (HexToBin.loop_next hnul (by omega) room).trans hloop, fun j => ?_⟩
    have hdest : (s.next hex).dest = s.dest.set s.bin (f s.bin) := by
      rw [HexToBin.next_dest, hph, hread s.bin (by omega)]
    rw [hs' j, hdest, hbin]
    by_cases hj : j = s.bin
    · rw [if_neg (by omega), if_pos (by omega), hj, List.getElem?_set_self']
      rfl
    · have hrange : s.bin + 1 ≤ j ∧ j < s.bin + 1 + room ↔
          s.bin ≤ j ∧ j < s.bin + (room + 1) := by omega
      simp only [List.getElem?_set_ne (Ne.symm hj), hrange]

/-! ## The condition -/

/-- Behind the first `width + 1` bytes, each byte has the digits that the text has where
the decoder then stands; in front of a blank that is one digit. -/
def Aligned (m : List UInt8) (width : Nat) : Prop :=
  ∀ k < m.length, width < k →
    let i := digitsBefore width (2 * k)
    if IsGap width (2 * k + 1) then
      (digits m)[2 * k]? = some 0 ∧ (digits m)[2 * k + 1]? = (digits m)[i]?
    else (digits m)[2 * k]? = (digits m)[i]? ∧ (digits m)[2 * k + 1]? = (digits m)[i + 1]?

instance (m : List UInt8) (width : Nat) : Decidable (Aligned m width) :=
  inferInstanceAs (Decidable (∀ k < m.length, width < k → _))

theorem stored_eq_iff {m : List UInt8} {k : Nat} (hk : k < m.length) :
    stored m width k = m[k] ↔
      if IsGap width (2 * k + 1) then
        (digits m)[2 * k]? = some 0 ∧
          (digits m)[2 * k + 1]? = (digits m)[digitsBefore width (2 * k)]?
      else (digits m)[2 * k]? = (digits m)[digitsBefore width (2 * k)]? ∧
        (digits m)[2 * k + 1]? = (digits m)[digitsBefore width (2 * k) + 1]? := by
  obtain ⟨d, e, hd, he, hfirst, hsecond⟩ := exists_digits width hk
  have hbyte := m[k].toNat_lt
  rw [getElem?_digits_even, getElem?_digits_odd, hfirst, hsecond, List.getElem?_eq_getElem hk]
  simp only [stored, List.getD_eq_getElem?_getD, hfirst, hsecond, Option.map_some,
    Option.getD_some, Option.some.injEq, ← UInt8.toNat_inj, UInt8.toNat_ofNat']
  split
  · omega
  · omega

/-- In the first row and its next byte the blanks are not felt. -/
theorem stored_front (hwidth : 1 ≤ width) {m : List UInt8} {k : Nat} (hk : k < m.length)
    (hrow : k ≤ width) : stored m width k = m[k] := by
  have hbefore : digitsBefore width (2 * k) = 2 * k := by
    rw [digitsBefore, Nat.div_eq_of_lt (by omega)]
    rfl
  have hgap : ¬ IsGap width (2 * k + 1) := by
    unfold IsGap
    rcases Nat.lt_or_eq_of_le hrow with hlt | heq
    · rw [Nat.mod_eq_of_lt (by omega)]
      omega
    · rw [heq, Nat.mod_self]
      omega
  rw [stored_eq_iff hk, if_neg hgap, hbefore]
  exact ⟨rfl, rfl⟩

theorem aligned_iff (hwidth : 1 ≤ width) (m : List UInt8) :
    Aligned m width ↔ ∀ k (hk : k < m.length), stored m width k = m[k] := by
  constructor
  · intro h k hk
    rcases Nat.lt_or_ge width k with hbehind | hfront
    · exact (stored_eq_iff hk).mpr (h k hk hbehind)
    · exact stored_front hwidth hk hfront
  · intro h k hk _
    exact (stored_eq_iff hk).mp (h k hk)

/-- Up to `width + 1` bytes every array fits; of each greater length some do not. -/
theorem aligned_all_iff (hwidth : 1 ≤ width) (n : Nat) :
    (∀ m : List UInt8, m.length = n → Aligned m width) ↔ n ≤ width + 1 := by
  constructor
  · intro h
    by_contra hlong
    have hbyte : (List.replicate n (16 : UInt8))[width + 1]? = some 16 :=
      List.getElem?_replicate_of_lt (by omega)
    have haligned := h (List.replicate n 16) (List.length_replicate ..) (width + 1)
      (by rw [List.length_replicate]; omega) (Nat.lt_succ_self width)
    have hone : 2 * (width + 1) / (2 * width + 1) = 1 :=
      Nat.div_eq_of_lt_le (by omega) (by omega)
    have hplace : digitsBefore width (2 * (width + 1)) = 2 * width + 1 := by
      rw [digitsBefore, hone]
      omega
    have hprevious : (List.replicate n (16 : UInt8))[width]? = some 16 :=
      List.getElem?_replicate_of_lt (by omega)
    simp only [hplace, getElem?_digits_even, getElem?_digits_odd, hbyte, hprevious,
      Option.map_some] at haligned
    split at haligned
    · exact absurd haligned.1 (by decide)
    · exact absurd haligned.1 (by decide)
  · intro hshort m hlen k hk hbehind
    omega

theorem round_trip_iff (hwidth : 1 ≤ width) (m behind dest : List UInt8)
    (hdest : m.length ≤ dest.length) :
    (∃ s, hexToBin (hexConvertMemory m width ++ 0 :: behind) dest m.length = some s ∧
      s.dest = m ++ dest.drop m.length) ↔ Aligned m width := by
  obtain ⟨s, hrun, hs⟩ := loop_dest behind (hexConvertMemory_ne_zero hwidth m) m.length
    (s := ⟨0, 0, dest, [], []⟩) rfl
    (by simpa using le_length_hexConvertMemory hwidth m)
    (fun k hk => convert_drop hwidth (by simpa using hk))
  simp only [Nat.zero_le, true_and, Nat.zero_add] at hs
  have hstored : s.dest = m ++ dest.drop m.length ↔
      ∀ k (hk : k < m.length), stored m width k = m[k] := by
    constructor
    · intro h k hk
      have hk' := hs k
      rw [h, List.getElem?_append_left hk, if_pos hk, List.getElem?_eq_getElem hk,
        List.getElem?_eq_getElem (by omega)] at hk'
      exact (Option.some.inj hk').symm
    · intro h
      refine List.ext_getElem? fun j => ?_
      rw [hs j]
      split
      case isTrue hj =>
        rw [List.getElem?_append_left hj, List.getElem?_eq_getElem hj,
          List.getElem?_eq_getElem (by omega), ← h j hj]
        rfl
      case isFalse hj =>
        rw [List.getElem?_append_right (by omega), List.getElem?_drop]
        congr 1
        omega
  rw [aligned_iff hwidth, ← hstored]
  constructor
  · rintro ⟨s', hrun', h⟩
    have hsame : s = s' := Option.some.inj (hrun.symm.trans hrun')
    rwa [hsame]
  · exact fun h => ⟨s, hrun, h⟩

/-- The third byte is the second digit of the byte in front, as it is when `width` is 1. -/
theorem round_trip_three_bytes :
    ∃ s, hexToBin (hexConvertMemory [18, 52, 4] 1 ++ [0]) [0, 0, 0, 9] 3 = some s ∧
      s.dest = [18, 52, 4, 9] :=
  (round_trip_iff (Nat.le_refl 1) [18, 52, 4] [] [0, 0, 0, 9] (by decide)).mpr (by decide)

/-- The third byte of the text "01 02 03" is read from "2 03". -/
theorem third_byte_lost :
    ¬ ∃ s, hexToBin (hexConvertMemory [1, 2, 3] 1 ++ [0]) [0, 0, 0] 3 = some s ∧
      s.dest = [1, 2, 3] := by
  rintro ⟨s, hrun, hdest⟩
  have hvalue : hexToBin (hexConvertMemory [1, 2, 3] 1 ++ [0]) [0, 0, 0] 3 =
      some ⟨6, 3, [1, 2, 2], [0, 8, 2, 8, 4, 8, 6], [0, 1, 2]⟩ := by decide
  rw [hvalue] at hrun
  rw [← Option.some.inj hrun] at hdest
  exact absurd hdest (by decide)

end LearnFramework.HexText
